-- The close calls of a socket: each explicit one and the destructor's post a
-- task of their own, and the implementation closes its handle once.
import Ltl.WriteFate

open runs ltl.future_state lio.task_loop

namespace lio.socket.impl

/-! ## The implementation while it closes -/

/-- `closing_`, the calls of `uv_close`, the promise and the pointer to itself go together. -/
structure Consistent (c : Closing) : Prop where
  once : c.uv_closes = if c.closing_ then 1 else 0
  back : c.called_back = true → c.closing_ = true
  promise : c.closing_promise_ = if c.called_back then { value_ := some () } else {}
  kept : c.keep_alive_ = (c.closing_ && !c.called_back)

theorem init_consistent : Consistent {} := ⟨rfl, nofun, rfl, rfl⟩

theorem close_consistent {c : Closing} (h : Consistent c) (hc : c.closing_ = false) :
    Consistent { c with closing_ := true, uv_closes := c.uv_closes + 1, keep_alive_ := true } := by
  have hback : c.called_back = false := by
    cases hb : c.called_back with
    | false => rfl
    | true => exact absurd (hc.symm.trans (h.back hb)) nofun
  refine ⟨?_, fun _ => rfl, h.promise, ?_⟩
  · show c.uv_closes + 1 = 1
    rw [h.once, hc]
    rfl
  · show true = (true && !c.called_back)
    rw [hback]
    rfl

theorem on_close_consistent {c : Closing} (h : Consistent c) (hu : c.uv_closes ≠ 0)
    (hb : c.called_back = false) : Consistent (on_close c) := by
  have hc : c.closing_ = true := by
    cases hc : c.closing_ with
    | true => rfl
    | false =>
      refine absurd ?_ hu
      rw [h.once, hc]
      rfl
  refine ⟨h.once, fun _ => hc, ?_, ?_⟩
  · show (set_value c.closing_promise_ (.ok ())).2 = { value_ := some () }
    rw [h.promise, hb]
    rfl
  · show false = (c.closing_ && !true)
    rw [Bool.not_true, Bool.and_false]

/-! ## The tasks of close -/

def Task.close? : Task → Option Nat
  | .close call => some call
  | _ => none

/-- The calls of `close` whose tasks are in the queue. -/
def pending (tasks : List Task) : List Nat := tasks.filterMap Task.close?

theorem pending_post (s : System) {task : Task} (ht : task.close? = none) :
    pending (post s task).loop.queued = pending s.loop.queued := by
  unfold pending
  rw [queued_post, List.filterMap_append, List.filterMap_cons_none ht]
  exact List.append_nil _

/-- 1 when the assertion has failed, as one task was called that closed nothing. -/
def failures (s : System) : Nat := if s.fault = some .assertion then 1 else 0

/-- Each call of `close` has a task in the queue, has closed the handle, or has failed, and no more of
them were called than have closed it. -/
structure Counted (s : System) : Prop where
  calls : s.closed.length = s.closes + if s.object = .alive then 0 else 1
  queued : (pending s.loop.queued).length + s.closing.uv_closes + failures s = s.closed.length
  done : s.closed.count true ≤ s.closing.uv_closes
  closing : Consistent s.closing
  failed : s.fault = some .assertion → s.closing.closing_ = true
  waiting : ∀ i, s.closed[i]? = some false →
    i ∈ pending s.loop.queued ∨ s.fault = some .assertion

theorem init_counted : Counted {} := ⟨rfl, rfl, Nat.le_refl 0, init_consistent, nofun, nofun⟩

/-- A step that neither posts a task of `close` nor calls one. -/
theorem same_counted {s s' : System} (h : Counted s) (ho : s'.object = .alive ↔ s.object = .alive)
    (hc : s'.closing = s.closing) (hd : s'.closed = s.closed) (hn : s'.closes = s.closes)
    (hq : pending s'.loop.queued = pending s.loop.queued)
    (hf : s'.fault = some .assertion ↔ s.fault = some .assertion) : Counted s' := by
  refine ⟨?_, ?_, ?_, ?_, ?_, ?_⟩
  · simp only [hd, hn, ho]
    exact h.calls
  · unfold failures
    simp only [hq, hc, hd, hf]
    exact h.queued
  · rw [hc, hd]
    exact h.done
  · rw [hc]
    exact h.closing
  · rw [hc, hf]
    exact h.failed
  · rw [hd, hq, hf]
    exact h.waiting

/-- Another call of `close`, of the user or of the destructor. -/
theorem post_close_counted {s s' : System} (h : Counted s)
    (hs : s' = { s with object := s'.object, closes := s'.closes })
    (hn : s'.closes + (if s'.object = .alive then 0 else 1) =
      s.closes + (if s.object = .alive then 0 else 1) + 1) : Counted (post_close s') := by
  have hclosed : s'.closed = s.closed := by rw [hs]
  have hloop : s'.loop = s.loop := by rw [hs]
  have hclosing : s'.closing = s.closing := by rw [hs]
  have hfault : s'.fault = s.fault := by rw [hs]
  have hpending : pending (post_close s').loop.queued =
      pending s.loop.queued ++ [s.closed.length] := by
    unfold post_close pending
    rw [queued_post, List.filterMap_append, hclosed]
    dsimp only
    rw [hloop]
    rfl
  refine ⟨?_, ?_, ?_, ?_, ?_, ?_⟩
  · show (s'.closed ++ [false]).length = s'.closes + if s'.object = .alive then 0 else 1
    rw [List.length_append, hclosed, h.calls, hn]
    rfl
  · show (pending (post_close s').loop.queued).length + s'.closing.uv_closes +
      (if s'.fault = some .assertion then 1 else 0) = (s'.closed ++ [false]).length
    have hqueued := h.queued
    unfold failures at hqueued
    rw [hpending, List.length_append, List.length_append, List.length_singleton,
      List.length_singleton, hclosing, hclosed, hfault]
    omega
  · show (s'.closed ++ [false]).count true ≤ s'.closing.uv_closes
    rw [List.count_append, hclosed, hclosing]
    exact h.done
  · show Consistent s'.closing
    rw [hclosing]
    exact h.closing
  · show s'.fault = _ → s'.closing.closing_ = true
    rw [hfault, hclosing]
    exact h.failed
  · show ∀ i, (s'.closed ++ [false])[i]? = some false → _ ∨ s'.fault = _
    intro i hi
    rw [hpending, hfault]
    rw [hclosed] at hi
    rcases Nat.lt_trichotomy i s.closed.length with hlt | rfl | hgt
    · rw [List.getElem?_append_left hlt] at hi
      exact (h.waiting i hi).imp_left (List.mem_append_left _)
    · exact Or.inl (List.mem_append_right _ List.mem_cons_self)
    · rw [List.getElem?_eq_none (by rw [List.length_append, List.length_singleton]; omega)] at hi
      cases hi

theorem count_set_le (l : List Bool) (i : Nat) :
    (l.set i true).count true ≤ l.count true + 1 := by
  by_cases hi : i < l.length
  · rw [List.count_set hi]
    simp
  · rw [List.set_eq_of_length_le (Nat.le_of_not_lt hi)]
    exact Nat.le_succ _

theorem call_counted {s : System} {loop : Loop Task} {refused : Bool} {task : Task}
    (h : Counted s) (hf : s.fault = none) (hl : on_async_new_task s.loop = some loop)
    (hn : s.loop.next = some task) : Counted ({ s with loop }.call refused task) := by
  have hq := congrArg pending (queued_call hl hn)
  have hfault : ¬ s.fault = some .assertion := by
    rw [hf]
    exact nofun
  cases task with
  | write call data =>
    refine same_counted h Iff.rfl rfl rfl rfl hq.symm ?_
    show (if s.closing.tcp_ then s.fault else _) = _ ↔ _
    rw [hf]
    cases s.closing.tcp_ <;> exact ⟨nofun, nofun⟩
  | read size =>
    obtain ⟨-, hc⟩ | ⟨_, -, ⟨-, hc⟩ | ⟨-, hc⟩⟩ := call_read { s with loop } refused size
    · rw [hc]
      exact same_counted h Iff.rfl rfl rfl rfl hq.symm ⟨nofun, fun he => absurd he hfault⟩
    · rw [hc]
      exact same_counted h Iff.rfl rfl rfl rfl hq.symm Iff.rfl
    · rw [hc]
      exact same_counted h Iff.rfl rfl rfl rfl hq.symm ⟨nofun, fun he => absurd he hfault⟩
  | close call =>
    have hlen : (pending s.loop.queued).length = (pending loop.queued).length + 1 := by
      rw [hq]
      rfl
    have hqueued := h.queued
    unfold failures at hqueued
    rw [if_neg hfault] at hqueued
    obtain ⟨hclosing, hc⟩ | ⟨hclosing, hc⟩ := call_close { s with loop } refused call
    · rw [hc]
      refine ⟨h.calls, ?_, h.done, h.closing, fun _ => hclosing, fun _ _ => Or.inr rfl⟩
      show (pending loop.queued).length + s.closing.uv_closes + 1 = s.closed.length
      omega
    · rw [hc]
      refine ⟨?_, ?_, ?_, close_consistent h.closing hclosing, fun _ => rfl, ?_⟩
      · show (s.closed.set call true).length = _
        rw [List.length_set]
        exact h.calls
      · show (pending loop.queued).length + (s.closing.uv_closes + 1) +
          (if s.fault = some .assertion then 1 else 0) = (s.closed.set call true).length
        rw [List.length_set, if_neg hfault]
        omega
      · exact Nat.le_trans (count_set_le s.closed call) (Nat.add_le_add_right h.done 1)
      · show ∀ i, (s.closed.set call true)[i]? = some false → _
        intro i hi
        rw [List.getElem?_set] at hi
        split at hi
        · split at hi <;> cases hi
        · rename_i hne
          have hw := (h.waiting i hi).resolve_right hfault
          rw [hq] at hw
          exact Or.inl ((List.mem_cons.mp hw).resolve_left (fun he => hne he.symm))
  | other => exact same_counted h Iff.rfl rfl rfl rfl hq.symm Iff.rfl

theorem step_counted {s s' : System} {e : Event} (h : Counted s) (hs : step s e = some s') :
    Counted s' := by
  obtain ⟨hf, hm⟩ := step_moves hs
  cases hm with
  | write _ _ | alloc_read _ _ | read_cb _ _ =>
    exact same_counted h Iff.rfl rfl rfl rfl rfl Iff.rfl
  | overload _ =>
    unfold body
    split
    · exact same_counted h Iff.rfl rfl rfl rfl rfl Iff.rfl
    · exact same_counted h Iff.rfl rfl rfl rfl (pending_post _ rfl) Iff.rfl
  | read _ _ | execute => exact same_counted h Iff.rfl rfl rfl rfl (pending_post _ rfl) Iff.rfl
  | close ho =>
    refine post_close_counted h rfl ?_
    dsimp only
    rw [ho]
    rfl
  | destroy ho hr =>
    refine post_close_counted h rfl ?_
    rw [ho]
    rfl
  | release ho =>
    refine same_counted h ?_ rfl rfl rfl rfl Iff.rfl
    rw [ho]
    exact ⟨nofun, nofun⟩
  | async hl =>
    exact same_counted h Iff.rfl rfl rfl rfl (congrArg pending (queued_async hl)) Iff.rfl
  | idle hl hn =>
    exact same_counted h Iff.rfl rfl rfl rfl (congrArg pending (queued_idle hl hn).symm) Iff.rfl
  | call hl hn => exact call_counted h hf hl hn
  | write_cb _ =>
    unfold write_cb
    split
    · refine same_counted h Iff.rfl rfl rfl rfl rfl ?_
      rw [hf]
      exact ⟨nofun, nofun⟩
    · exact same_counted h Iff.rfl rfl rfl rfl rfl Iff.rfl
  | close_cb hu hb _ =>
    exact ⟨h.calls, h.queued, h.done, on_close_consistent h.closing hu hb, h.failed, h.waiting⟩

theorem reach_counted {ok : System → Event → Prop} {s : System} (h : Reach step ok {} s) :
    Counted s :=
  h.invariant init_counted (fun _ _ _ hc _ hs => step_counted hc hs)

/-! ## Nothing comes behind the destructor's close -/

theorem no_close_in {s : System} (h : pending s.loop.queued = []) :
    ∀ t ∈ s.loop.queued, t.close? = none := List.filterMap_eq_nil_iff.mp h

/-- Without a call of the user there are only tasks of others behind one of `close`, and when that
one was called the program goes on. -/
structure Alone (s : System) : Prop where
  running : s.object ≠ .alive → s.running = []
  behind : s.closes = 0 → s.loop.queued.Pairwise (fun t u => t.close? ≠ none → u = .other)
  after : s.closes = 0 → s.closing.closing_ = true → (∀ t ∈ s.loop.queued, t = .other) ∧ ¬ Stopped s

theorem init_alone : Alone {} := ⟨fun _ => rfl, fun _ => .nil, nofun⟩

/-- No task of `close` was posted while the socket is alive. -/
theorem Counted.unposted {s : System} (h : Counted s) (ho : s.object = .alive)
    (hn : s.closes = 0) : pending s.loop.queued = [] ∧ s.closing.closing_ = false := by
  have hqueued := h.queued
  have hcalls := h.calls
  have honce := h.closing.once
  rw [ho, if_pos rfl, hn] at hcalls
  refine ⟨List.length_eq_zero_iff.mp (by omega), ?_⟩
  cases hc : s.closing.closing_ with
  | false => rfl
  | true =>
    rw [hc, if_pos rfl] at honce
    omega

/-- Another task, posted while the socket is alive. -/
theorem post_alone {s s' : System} {task : Task} (h : Alone s) (hc : Counted s)
    (ho : s.object = .alive) (ho' : s'.object = .alive) (hn : s'.closes = s.closes)
    (hl : s'.loop.queued = s.loop.queued ++ [task]) (hclosing : s'.closing = s.closing) :
    Alone s' := by
  refine ⟨fun hne => absurd ho' hne, ?_, ?_⟩
  · intro hz
    rw [hn] at hz
    rw [hl, List.pairwise_append]
    refine ⟨h.behind hz, List.pairwise_singleton _ _, ?_⟩
    intro t ht u _ hclose
    exact absurd (no_close_in (hc.unposted ho hz).1 t ht) hclose
  · intro hz hset
    rw [hn] at hz
    rw [hclosing, (hc.unposted ho hz).2] at hset
    cases hset

/-- A step that neither posts a task of the socket nor calls one. -/
theorem same_alone {s s' : System} (h : Alone s) (hr : s'.object ≠ .alive → s'.running = [])
    (hn : s'.closes = s.closes) (hq : s'.loop.queued = s.loop.queued)
    (hclosing : s'.closing.closing_ = true →
      s.closing.closing_ = true ∧ (¬ Stopped s → ¬ Stopped s')) :
    Alone s' := by
  refine ⟨hr, ?_, ?_⟩
  · rw [hn, hq]
    exact h.behind
  · rw [hn, hq]
    intro hz hset
    obtain ⟨hset, hstop⟩ := hclosing hset
    obtain ⟨hother, hruns⟩ := h.after hz hset
    exact ⟨hother, hstop hruns⟩

/-- What the call of a task leaves alone. -/
theorem call_keeps (s : System) (refused : Bool) (task : Task) :
    (s.call refused task).object = s.object ∧ (s.call refused task).closes = s.closes ∧
      (task.close? = none → (s.call refused task).closing = s.closing) := by
  cases task with
  | write call data => exact ⟨rfl, rfl, fun _ => rfl⟩
  | read size =>
    obtain ⟨-, hc⟩ | ⟨_, -, ⟨-, hc⟩ | ⟨-, hc⟩⟩ := call_read s refused size
    all_goals
      rw [hc]
      exact ⟨rfl, rfl, fun _ => rfl⟩
  | close call =>
    obtain ⟨-, hc⟩ | ⟨-, hc⟩ := call_close s refused call
    all_goals
      rw [hc]
      exact ⟨rfl, rfl, nofun⟩
  | other => exact ⟨rfl, rfl, fun _ => rfl⟩

theorem call_alone {s : System} {loop : Loop Task} {refused : Bool} {task : Task} (h : Alone s)
    (hf : ¬ Stopped s) (hl : on_async_new_task s.loop = some loop) (hn : s.loop.next = some task) :
    Alone ({ s with loop }.call refused task) := by
  obtain ⟨hobject, hcloses, hclosing⟩ := call_keeps { s with loop } refused task
  have hbehind := h.behind
  have hafter := h.after
  rw [queued_call hl hn] at hbehind hafter
  refine ⟨?_, ?_, ?_⟩
  · rw [hobject, call_running]
    exact h.running
  · rw [hcloses, call_loop]
    exact fun hz => (List.pairwise_cons.mp (hbehind hz)).2
  · rw [hcloses, call_loop]
    intro hz hset
    by_cases hother : task.close? = none
    · rw [hclosing hother] at hset
      obtain ⟨hall, -⟩ := hafter hz hset
      obtain rfl : task = .other := hall task List.mem_cons_self
      exact ⟨fun t ht => hall t (List.mem_cons_of_mem _ ht), hf⟩
    · refine ⟨fun t ht => (List.pairwise_cons.mp (hbehind hz)).1 t ht hother, ?_⟩
      refine (call_goes_on (s := { s with loop }) hf refused task).mpr ?_
      cases task with
      | close call =>
        cases hc : s.closing.closing_ with
        | false => exact hc
        | true => exact nomatch (hafter hz hc).1 _ List.mem_cons_self
      | write | read | other => exact absurd rfl hother

theorem step_alone {s s' : System} {e : Event} (h : Alone s) (hc : Counted s) (hord : Ordered s)
    (hs : step s e = some s') : Alone s' := by
  have hf := running_of_step hs
  obtain ⟨-, hm⟩ := step_moves hs
  cases hm with
  | write _ ho => exact same_alone h (fun hne => absurd ho hne) rfl rfl (fun hset => ⟨hset, id⟩)
  | @overload i c hr =>
    -- a call runs, so the destructor does not
    have ho : s.object = .alive := by
      refine Decidable.byContradiction (fun hne => ?_)
      rw [h.running hne] at hr
      cases hr
    unfold body
    split
    · exact same_alone h (fun hne => absurd ho hne) rfl rfl (fun hset => ⟨hset, id⟩)
    · exact post_alone h hc ho ho rfl (queued_post _ _) rfl
  | read _ ho => exact post_alone h hc ho ho rfl (queued_post _ _) rfl
  | close _ => exact ⟨h.running, nofun, nofun⟩
  | destroy ho hr =>
    refine ⟨fun _ => hr, ?_, ?_⟩
    · intro hz
      show (post_close { s with object := .destroying }).loop.queued.Pairwise _
      unfold post_close
      rw [queued_post, List.pairwise_append]
      refine ⟨h.behind hz, List.pairwise_singleton _ _, ?_⟩
      intro t ht u _ hclose
      exact absurd (no_close_in (hc.unposted ho hz).1 t ht) hclose
    · intro hz hset
      exact absurd ((hc.unposted ho hz).2.symm.trans hset) nofun
  | release ho =>
    refine same_alone h (fun _ => h.running ?_) rfl rfl (fun hset => ⟨hset, id⟩)
    rw [ho]
    exact nofun
  | execute =>
    refine ⟨h.running, ?_, ?_⟩
    · intro hz
      rw [queued_post, List.pairwise_append]
      refine ⟨h.behind hz, List.pairwise_singleton _ _, ?_⟩
      intro t _ u hu _
      exact List.mem_singleton.mp hu
    · intro hz hset
      obtain ⟨hall, hruns⟩ := h.after hz hset
      refine ⟨?_, hruns⟩
      rw [queued_post]
      intro t ht
      rcases List.mem_append.mp ht with ht | ht
      · exact hall t ht
      · exact List.mem_singleton.mp ht
  | async hl => exact same_alone h h.running rfl (queued_async hl) (fun hset => ⟨hset, id⟩)
  | idle hl hn =>
    exact same_alone h h.running rfl (queued_idle hl hn).symm (fun hset => ⟨hset, id⟩)
  | call hl hn => exact call_alone h hf hl hn
  | alloc_read hclosing _ | read_cb hclosing _ =>
    exact same_alone h h.running rfl rfl (fun hset => absurd (hclosing.symm.trans hset) nofun)
  | @write_cb call accepted status ha =>
    obtain ⟨w', hw, -, -⟩ := callback_sound hord.sound ha status
    unfold write_cb
    rw [hw]
    exact same_alone h h.running rfl rfl (fun hset => ⟨hset, id⟩)
  | close_cb _ _ _ => exact same_alone h h.running rfl rfl (fun hset => ⟨hset, id⟩)

theorem reach_alone {ok : System → Event → Prop} {s : System} (h : Reach step ok {} s) : Alone s :=
  h.invariant_on (Q := fun s => Counted s ∧ Ordered s)
    (fun _ hr => ⟨reach_counted hr, reach_ordered hr⟩) init_alone
    (fun _ _ _ hq ha _ hs => step_alone ha hq.1 hq.2 hs)

/-! ## Closing once -/

/-- The future that a call of `close` has returned. -/
def close_outcome (s : System) (call : Nat) : Option (Except Unit Unit) :=
  if s.closed[call]? = some true then get s.closing.closing_promise_ else none

/-- The owners of the implementation: the object, the pointer to itself, and the tasks that are not
destroyed. -/
def Owned (s : System) : Prop :=
  s.object ≠ .gone ∨ s.closing.keep_alive_ = true ∨ ∃ t ∈ s.loop.stored, t.holds = true

/-- What is said of closing in every state. -/
structure Safe (s : System) : Prop where
  once : s.closing.uv_closes ≤ 1
  assertion : s.fault ≠ some .assertion
  after : ∀ call, close_outcome s call ≠ none → s.closing.called_back = true
  owned : s.closing.uv_closes ≠ 0 → s.closing.called_back = false → Owned s

/-- What is said of it at the end. -/
structure Complete (s : System) : Prop where
  closed : s.closing.uv_closes = 1
  futures : ∀ call < s.closed.length, close_outcome s call ≠ none

/-- The socket is destroyed and the loop has nothing left to do for it, or the program has stopped
since the destructor began. -/
def Ended (s : System) : Prop :=
  (s.object ≠ .alive ∧ Stopped s) ∨ (s.object = .gone ∧ s.loop.queued = [] ∧
    (s.closing.uv_closes ≠ 0 → s.closing.called_back = true))

/-- The user does not call `close`, and the step does not stop the program. -/
def ClosesAlone (s : System) (e : Event) : Prop := e ≠ .close ∧ GoesOn s e

instance (s : System) (e : Event) : Decidable (ClosesAlone s e) :=
  inferInstanceAs (Decidable (e ≠ .close ∧ GoesOn s e))

/-- Everything but the assertion holds in every run. -/
theorem safe_of_counted {s : System} (h : Counted s) (hf : s.fault ≠ some .assertion) : Safe s := by
  have hc := h.closing
  refine ⟨?_, hf, ?_, ?_⟩
  · rw [hc.once]
    split
    · exact Nat.le_refl 1
    · exact Nat.zero_le 1
  · intro call ho
    unfold close_outcome at ho
    split at ho
    · cases hb : s.closing.called_back with
      | true => rfl
      | false =>
        rw [hc.promise, hb] at ho
        exact absurd rfl ho
    · exact absurd rfl ho
  · intro hu hb
    refine Or.inr (Or.inl ?_)
    rw [hc.kept, hb, Bool.not_false, Bool.and_true]
    cases hclosing : s.closing.closing_ with
    | true => rfl
    | false =>
      rw [hc.once, hclosing] at hu
      exact absurd rfl hu

/-- Without a call of the user the assertion holds: there is one task of `close` at most. -/
theorem no_assertion {s : System} (h : Counted s) (hn : s.closes = 0) :
    s.fault ≠ some .assertion := by
  intro hf
  have hqueued := h.queued
  have hcalls := h.calls
  have honce := h.closing.once
  unfold failures at hqueued
  rw [if_pos hf] at hqueued
  rw [if_pos (h.failed hf)] at honce
  rw [hn] at hcalls
  split at hcalls <;> omega

/-- A socket whose handle is closed for every call had the destructor's only. -/
theorem closes_of_complete {s : System} (h : Counted s) (ho : s.object ≠ .alive)
    (hc : Complete s) : s.closes = 0 := by
  have hall : ∀ b ∈ s.closed, true = b := by
    intro b hb
    obtain ⟨i, hi⟩ := List.mem_iff_getElem?.mp hb
    have hset := hc.futures i (List.getElem?_eq_some_iff.mp hi).1
    unfold close_outcome at hset
    split at hset
    · rename_i ht
      rw [hi] at ht
      exact (Option.some.inj ht).symm
    · exact absurd rfl hset
  have hdone := h.done
  rw [List.count_eq_length.mpr hall, h.calls, hc.closed, if_neg ho] at hdone
  exact Nat.le_zero.mp (Nat.le_of_succ_le_succ hdone)

theorem Ended.destroyed {s : System} (h : Ended s) : s.object ≠ .alive := by
  rcases h with ⟨ho, -⟩ | ⟨ho, -⟩
  · exact ho
  · rw [ho]
    exact nofun

theorem complete_of_counted {s : System} (h : Counted s) (he : Ended s) (hf : ¬ Stopped s)
    (hn : s.closes = 0) : Complete s := by
  obtain ⟨ho, hnil, hback⟩ := he.resolve_left (fun hstop => hf hstop.2)
  have hfault : s.fault ≠ some .assertion := by
    intro hfail
    exact hf (Or.inl (by rw [hfail]; exact nofun))
  have hone : s.closing.uv_closes = 1 := by
    have hqueued := h.queued
    have hcalls := h.calls
    unfold failures at hqueued
    rw [hnil, if_neg hfault] at hqueued
    rw [ho, if_neg nofun, hn] at hcalls
    exact (Nat.zero_add _).symm.trans (hqueued.trans hcalls)
  have hback := hback (by rw [hone]; exact Nat.one_ne_zero)
  refine ⟨hone, fun call hcall => ?_⟩
  have hcalled : s.closed[call]? = some true := by
    rw [List.getElem?_eq_getElem hcall]
    cases hb : s.closed[call] with
    | true => rfl
    | false =>
      have hw := h.waiting call (by rw [List.getElem?_eq_getElem hcall, hb])
      rw [hnil] at hw
      rcases hw with hw | hw
      · cases hw
      · exact absurd hw hfault
  unfold close_outcome
  rw [if_pos hcalled, h.closing.promise, hback]
  exact nofun

/-- At the end closing was safe and complete exactly when the user has not called `close` and the
program has not stopped. -/
theorem complete_iff {s : System} (h : Reach step anyEvent {} s) (he : Ended s) :
    (Safe s ∧ Complete s) ↔ s.closes = 0 ∧ ¬ Stopped s := by
  have hc := reach_counted h
  constructor
  · rintro ⟨-, hcomplete⟩
    have hn := closes_of_complete hc he.destroyed hcomplete
    refine ⟨hn, ((reach_alone h).after hn ?_).2⟩
    cases hset : s.closing.closing_ with
    | true => rfl
    | false =>
      have honce := hc.closing.once
      rw [hcomplete.closed, hset] at honce
      cases honce
  · rintro ⟨hn, hf⟩
    exact ⟨safe_of_counted hc (no_assertion hc hn), complete_of_counted hc he hf hn⟩

/-- One step counts a call of the user, and no call is forgotten. -/
theorem closes_of_step {s s' : System} {e : Event} (h : step s e = some s') :
    s'.closes = s.closes + if e = .close then 1 else 0 := by
  obtain ⟨-, hm⟩ := step_moves h
  cases hm with
  | close _ => rfl
  | overload _ =>
    unfold body
    split <;> rfl
  | @call loop refused task _ _ => exact (call_keeps { s with loop } refused task).2.1
  | write_cb _ =>
    unfold write_cb
    split <;> rfl
  | write _ _ | read _ _ | destroy _ _ | release _ | execute | async _ | idle _ _ | alloc_read _ _
  | read_cb _ _ | close_cb _ _ _ => rfl

theorem closes_of_run (es : List Event) {s s' : System} (h : run step s es = some s') :
    s.closes ≤ s'.closes := by
  induction es generalizing s with
  | nil =>
    cases h
    exact Nat.le_refl _
  | cons e es ih =>
    obtain ⟨s₁, hs, hrest⟩ := Option.bind_eq_some_iff.mp h
    have hstep := closes_of_step hs
    have hle := ih hrest
    omega

/-- The steps of a run are of this kind exactly when it ends without a call of the user and without
a stop. -/
theorem closesAlone_iff (es : List Event) {s s' : System} (hord : Ordered s) (hf : ¬ Stopped s)
    (h : run step s es = some s') :
    runOk step ClosesAlone s es = some s' ↔ s'.closes = s.closes ∧ ¬ Stopped s' := by
  induction es generalizing s with
  | nil =>
    cases h
    exact ⟨fun _ => ⟨rfl, hf⟩, fun _ => rfl⟩
  | cons e es ih =>
    obtain ⟨s₁, hs, hrest⟩ := Option.bind_eq_some_iff.mp h
    have hstep := closes_of_step hs
    have hle := closes_of_run es hrest
    have hgo := hord.goes_on hs
    unfold runOk
    by_cases hok : ClosesAlone s e
    · rw [if_neg hok.1] at hstep
      rw [if_pos hok, hs, Option.bind_some,
        ih (step_ordered hord hs).1 (hgo.mpr hok.2) hrest, hstep]
      rfl
    · rw [if_neg hok]
      refine ⟨fun hnone => absurd hnone (by simp), ?_⟩
      rintro ⟨hn, hend⟩
      refine absurd ⟨?_, hgo.mp ?_⟩ hok
      · rintro rfl
        rw [if_pos rfl] at hstep
        omega
      · -- a program that has stopped makes no other step
        intro hstop
        cases es with
        | nil =>
          cases hrest
          exact hend hstop
        | cons e' es =>
          obtain ⟨s₂, hs', -⟩ := Option.bind_eq_some_iff.mp hrest
          exact running_of_step hs' hstop

end lio.socket.impl
