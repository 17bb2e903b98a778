-- The tasks of the event loop (iomanager.hpp, iomanager.cpp): `execute` and
-- `exec` from any thread, and the callback that runs what they queued.
import Ltl.Mirror
import Ltl.TaskLoop

open ltl.future_state counts runs

namespace lio.iomanager

abbrev FutureId := Nat

/-- A queued function: the promise that the lambda of `execute_impl` sets, or none for a function
that was given to `exec`. -/
abbrev Task := Option FutureId

/-- Where the lambda is: in `task()`, before `promise->set_value`, or in the loop of that setter
with so many continuations still to call. -/
inductive Stage (α : Type) where
  | task
  | set_value (v : α)
  | drain (n : Nat)
  deriving DecidableEq, Repr

/-- Where the thread of the loop is: in `uv_run`, before the swap of `on_async_new_task`, in its
inner loop before the next task, or in the first task of `tasks`. -/
inductive Thread (α : Type) where
  | uv_run
  | swap
  | tasks (tasks : List Task)
  | front (p : Task) (s : Stage α) (tasks : List Task)
  deriving DecidableEq, Repr

/-- What has happened so far. No step reads it. -/
inductive Entry (α χ : Type) where
  | returned (p : Task) (v : α)
  | threw (p : Task) (x : χ)
  deriving DecidableEq, Repr

abbrev Future (α χ : Type) := FutureState Unit α χ Unit

/-- `signalled` is the state of `async_signal_task_`. An exception that gets out of the callback of
libuv terminates the program. -/
structure Config (α χ : Type) where
  task_queue_ : List Task := []
  signalled : Bool := false
  thread : Thread α := .uv_run
  futures : List (Future α χ) := []
  log : List (Entry α χ) := []
  terminated : Bool := false
  deriving DecidableEq, Repr

inductive Event (α χ : Type) where
  | execute
  | exec
  /-- libuv calls `async_new_task_cb`. -/
  | async_new_task_cb
  /-- The callback goes on, outside of the code of a client. -/
  | on_async_new_task (built : Option χ)
  | ret (v : α)
  | throw_ (x : χ)
  /-- Some continuation is added to future `f`. -/
  | add_continuation (f : FutureId)

variable {α χ : Type}

/-- `impl::execute`. -/
def push (c : Config α χ) (t : Task) : Config α χ :=
  { c with task_queue_ := c.task_queue_ ++ [t], signalled := true }

/-- `promise->set_value` of the promise `f` with `v`. -/
def store (c : Config α χ) (f : FutureId) (v : Except χ α) (rest : List Task) :
    Option (Config α χ) :=
  match c.futures[f]? with
  | none => none
  | some s =>
    match set_value s v with
    | (.stored cs, s') => some { c with
        futures := c.futures.set f s'
        thread := .front (some f) (.drain cs.length) rest }
    | (.built x, _) => some { c with
        log := c.log ++ [.threw (some f) x]
        terminated := true }
    | _ => some { c with terminated := true }

/-- The value, when its constructor does not throw what `built` says. -/
def storedAs (v : α) (built : Option χ) : Except χ α :=
  match built with
  | some x => .error x
  | none => .ok v

def on_async_new_task (c : Config α χ) (built : Option χ) : Option (Config α χ) :=
  match c.thread with
  | .uv_run => none
  | .swap =>
    match c.task_queue_ with
    | [] => some { c with thread := .uv_run }
    | ts => some { c with task_queue_ := [], thread := .tasks ts }
  | .tasks [] => some { c with thread := .swap }
  | .tasks (p :: rest) => some { c with thread := .front p .task rest }
  | .front _ .task _ => none
  | .front none (.set_value _) rest => some { c with thread := .tasks rest }
  | .front (some f) (.set_value v) rest => store c f (storedAs v built) rest
  | .front _ (.drain 0) rest => some { c with thread := .tasks rest }
  | .front p (.drain (n + 1)) rest => some { c with thread := .front p (.drain n) rest }

def step (c : Config α χ) (e : Event α χ) : Option (Config α χ) :=
  if c.terminated then none
  else
    match e with
    | .execute =>
      some (push { c with futures := c.futures ++ [{}] } (some c.futures.length))
    | .exec => some (push c none)
    | .async_new_task_cb =>
      match c.thread, c.signalled with
      | .uv_run, true => some { c with signalled := false, thread := .swap }
      | _, _ => none
    | .on_async_new_task built => on_async_new_task c built
    | .ret v =>
      match c.thread with
      | .front p .task rest => some { c with
          thread := .front p (.set_value v) rest
          log := c.log ++ [.returned p v] }
      | _ => none
    | .throw_ x =>
      match c.thread with
      | .front p .task _ => some { c with
          log := c.log ++ [.threw p x]
          terminated := true }
      | _ => none
    | .add_continuation f =>
      match c.futures[f]? with
      | none => none
      | some s =>
        (add_continuation s ()).map (fun s' => { c with futures := c.futures.set f s' })

/-! ## Who sets a promise -/

/-- The task has the promise `f`. -/
def keeps (f : FutureId) (p : Task) : Nat := if p = some f then 1 else 0

/-- The tasks that the thread has taken, and that have not set their promise. -/
def Thread.unset : Thread α → List Task
  | .tasks ts => ts
  | .front _ (.drain _) ts => ts
  | .front p _ ts => p :: ts
  | _ => []

/-- The tasks that have not set their promise. -/
def unset (c : Config α χ) : List Task := c.task_queue_ ++ c.thread.unset

/-- Future `f` holds the value `v`. -/
def Stored (c : Config α χ) (f : FutureId) (v : α) : Prop :=
  ∃ s, c.futures[f]? = some s ∧ s.value_ = some v

/-- `set_value(v)` on the promise `f` is what the thread does next. -/
def Storing (c : Config α χ) (f : FutureId) (v : α) : Prop :=
  ∃ rest, c.thread = .front (some f) (.set_value v) rest

structure Good (c : Config α χ) : Prop where
  one : ∀ f, total (keeps f) (unset c) ≤ 1
  fresh : ∀ f, 0 < total (keeps f) (unset c) → ∃ s, c.futures[f]? = some s ∧ ready s = false
  value : ∀ f v, .returned (some f) v ∈ c.log → Stored c f v ∨ Storing c f v
  threw : (∃ p x, .threw p x ∈ c.log) ↔ c.terminated = true

theorem init_good : Good ({} : Config α χ) := by
  refine ⟨fun _ => Nat.zero_le 1, fun _ h => absurd h (Nat.lt_irrefl 0),
    fun _ _ h => (nomatch h), ?_⟩
  constructor
  · rintro ⟨p, x, h⟩
    cases h
  · intro h
    cases h

/-- The value of the first task is about to be stored. -/
def Thread.stores : Thread α → Bool
  | .front p (.set_value _) _ => p.isSome
  | _ => false

theorem Storing.stores {c : Config α χ} {f : FutureId} {v : α} (h : Storing c f v) :
    c.thread.stores = true := by
  obtain ⟨rest, hr⟩ := h
  rw [hr]
  rfl

/-- A step that hands the tasks on, in which none returns, throws or sets its promise. -/
theorem Good.moves {c : Config α χ} (hg : Good c) {ts : List Task} {b : Bool} {t : Thread α}
    (hst : c.thread.stores = false ∨ t = c.thread)
    (hun : ∀ f, total (keeps f) (ts ++ t.unset) = total (keeps f) (unset c)) :
    Good { c with task_queue_ := ts, signalled := b, thread := t } := by
  refine ⟨?_, ?_, ?_, hg.threw⟩
  · intro f
    exact Nat.le_trans (Nat.le_of_eq (hun f)) (hg.one f)
  · intro f hf
    exact hg.fresh f (Nat.lt_of_lt_of_le hf (Nat.le_of_eq (hun f)))
  · intro f v hv
    rcases hg.value f v hv with hs | hs
    · exact Or.inl hs
    · rcases hst with hst | rfl
      · rw [hs.stores] at hst
        cases hst
      · exact Or.inr hs

theorem keeps_self (f : FutureId) : keeps f (some f) = 1 := if_pos rfl

theorem total_unset (f : FutureId) (c : Config α χ) :
    total (keeps f) (unset c) = total (keeps f) c.task_queue_ + total (keeps f) c.thread.unset :=
  total_append _ _ _

/-- A future that holds a value is ready. -/
theorem Stored.not_fresh {c : Config α χ} {f : FutureId} {v : α} (h : Stored c f v) {s}
    (hs : c.futures[f]? = some s) : ready s = true := by
  obtain ⟨t, ht, hv⟩ := h
  rw [hs] at ht
  cases ht
  unfold ready
  rw [hv]
  rfl

theorem execute_good {c : Config α χ} (hg : Good c) :
    Good (push { c with futures := c.futures ++ [{}] } (some c.futures.length)) := by
  have hlen : ∀ f, 0 < total (keeps f) (unset c) → f < c.futures.length := by
    intro f hf
    obtain ⟨s, hs, -⟩ := hg.fresh f hf
    exact (List.getElem?_eq_some_iff.mp hs).1
  have hun : ∀ f, total (keeps f) (unset (push { c with futures := c.futures ++ [{}] }
      (some c.futures.length))) = total (keeps f) (unset c) + keeps f (some c.futures.length) := by
    intro f
    rw [total_unset, total_unset]
    show total (keeps f) (c.task_queue_ ++ [some c.futures.length]) + _ = _
    rw [total_append, total_cons, total_nil, Nat.add_zero, Nat.add_right_comm]
    rfl
  refine ⟨?_, ?_, ?_, hg.threw⟩
  · intro f
    rw [hun f]
    unfold keeps
    split
    · rename_i hf
      cases hf
      have hzero : total (keeps c.futures.length) (unset c) = 0 := by
        refine Nat.eq_zero_of_not_pos (fun hpos => ?_)
        exact Nat.lt_irrefl _ (hlen _ hpos)
      unfold keeps at hzero
      omega
    · exact hg.one f
  · intro f hf
    rw [hun f] at hf
    by_cases hnew : f = c.futures.length
    · subst hnew
      exact ⟨{}, List.getElem?_concat_length, rfl⟩
    · have hz : keeps f (some c.futures.length) = 0 := by
        refine if_neg (fun he => ?_)
        cases he
        exact hnew rfl
      rw [hz, Nat.add_zero] at hf
      obtain ⟨s, hs, hr⟩ := hg.fresh f hf
      exact ⟨s, (List.getElem?_append_left (hlen f hf)).trans hs, hr⟩
  · intro f v hv
    rcases hg.value f v hv with ⟨s, hs, hval⟩ | hst
    · refine Or.inl ⟨s, ?_, hval⟩
      exact (List.getElem?_append_left (List.getElem?_eq_some_iff.mp hs).1).trans hs
    · exact Or.inr hst

/-- An exception gets out of the task that runs. -/
theorem throw_good {c : Config α χ} (hg : Good c) {p : Task} {x : χ} :
    Good { c with log := c.log ++ [.threw p x], terminated := true } := by
  refine ⟨hg.one, hg.fresh, ?_, ?_⟩
  · intro f v hv
    rcases List.mem_append.mp hv with hv | hv
    · exact hg.value f v hv
    · cases List.mem_singleton.mp hv
  · constructor
    · intro _
      rfl
    · intro _
      exact ⟨p, x, List.mem_append_right _ List.mem_cons_self⟩

/-- The promise is set, and holds the value. -/
theorem stored_good {c : Config α χ} (hg : Good c) {f : FutureId} {v : α} {rest : List Task}
    (ht : c.thread = .front (some f) (.set_value v) rest) {s s' : Future α χ}
    (hs : c.futures[f]? = some s) (hr : ready s = false) (hv : s'.value_ = some v) (n : Nat) :
    Good { c with futures := c.futures.set f s', thread := .front (some f) (.drain n) rest } := by
  have hlt := (List.getElem?_eq_some_iff.mp hs).1
  have hun : ∀ g, total (keeps g) (unset c) =
      total (keeps g) c.task_queue_ + (keeps g (some f) + total (keeps g) rest) := by
    intro g
    rw [total_unset, ht]
    rfl
  have hun' : ∀ g, total (keeps g) (unset { c with
      futures := c.futures.set f s', thread := .front (some f) (.drain n) rest }) =
      total (keeps g) c.task_queue_ + total (keeps g) rest := fun g => total_append _ _ _
  have hother : ∀ {g : FutureId} {t : Future α χ}, g ≠ f → c.futures[g]? = some t →
      (c.futures.set f s')[g]? = some t := by
    intro g t hne htg
    exact (List.getElem?_set_ne (Ne.symm hne)).trans htg
  refine ⟨?_, ?_, ?_, hg.threw⟩
  · intro g
    have h1 := hg.one g
    have h2 := hun g
    rw [hun' g]
    omega
  · intro g hpos
    rw [hun' g] at hpos
    have h1 := hg.one g
    rw [hun g] at h1
    have hne : g ≠ f := by
      rintro rfl
      rw [keeps_self] at h1
      omega
    obtain ⟨t, htg, hrt⟩ := hg.fresh g (by rw [hun g]; omega)
    exact ⟨t, hother hne htg, hrt⟩
  · intro g u hmem
    rcases hg.value g u hmem with hst | ⟨rest', hth⟩
    · have hne : g ≠ f := by
        rintro rfl
        rw [hst.not_fresh hs] at hr
        cases hr
      obtain ⟨t, htg, hval⟩ := hst
      exact Or.inl ⟨t, hother hne htg, hval⟩
    · rw [ht] at hth
      cases hth
      exact Or.inl ⟨s', List.getElem?_set_self hlt, hv⟩

theorem store_good {c c' : Config α χ} (hg : Good c) {f : FutureId} {v : α} {b : Option χ}
    {rest : List Task} (ht : c.thread = .front (some f) (.set_value v) rest)
    (h : store c f (storedAs v b) rest = some c') : Good c' := by
  have hpos : 0 < total (keeps f) (unset c) := by
    rw [total_unset, ht]
    show 0 < _ + (keeps f (some f) + _)
    rw [keeps_self]
    omega
  obtain ⟨s, hs, hr⟩ := hg.fresh f hpos
  unfold store at h
  rw [hs] at h
  dsimp only at h
  cases hset : set_value s (storedAs v b) with
  | mk l s' =>
    rw [hset] at h
    rcases set_value_impl.spec s s' (storedAs v b) true l hset with
      ⟨hr', -⟩ | ⟨-, ha, -⟩ | ⟨-, x, -, rfl⟩ | ⟨-, w, hv, rfl, rfl⟩
    · rw [hr] at hr'
      cases hr'
    · cases ha
    · cases h
      exact throw_good hg
    · cases h
      refine stored_good hg ht hs hr ?_ _
      cases b with
      | none =>
        cases hv
        rfl
      | some y => cases hv

theorem on_async_good {c c' : Config α χ} (hg : Good c) {b : Option χ}
    (h : on_async_new_task c b = some c') : Good c' := by
  have hmoves : ∀ {ts : List Task} {t : Thread α}, c.thread.stores = false →
      (∀ f, total (keeps f) ts + total (keeps f) t.unset =
        total (keeps f) c.task_queue_ + total (keeps f) c.thread.unset) →
      Good { c with task_queue_ := ts, thread := t } := by
    intro ts t hst hun
    refine hg.moves (Or.inl hst) (fun f => ?_)
    rw [total_append, total_unset]
    exact hun f
  unfold on_async_new_task at h
  split at h
  · cases h
  · rename_i ht
    split at h
    · cases h
      apply hmoves <;> rw [ht]
      · rfl
      · exact fun f => rfl
    · cases h
      apply hmoves <;> rw [ht]
      · rfl
      · exact fun f => Nat.add_comm _ _
  · rename_i ht
    cases h
    apply hmoves <;> rw [ht]
    · rfl
    · exact fun f => rfl
  · rename_i p rest ht
    cases h
    apply hmoves <;> rw [ht]
    · rfl
    · exact fun f => rfl
  · cases h
  · rename_i v rest ht
    cases h
    apply hmoves <;> rw [ht]
    · rfl
    · -- a function of `exec` has no promise
      intro f
      show _ = _ + (keeps f none + total (keeps f) rest)
      rw [show keeps f none = 0 from rfl, Nat.zero_add]
      rfl
  · rename_i f v rest ht
    exact store_good hg ht h
  · rename_i p rest ht
    cases h
    apply hmoves <;> rw [ht]
    · rfl
    · exact fun f => rfl
  · rename_i p n rest ht
    cases h
    apply hmoves <;> rw [ht]
    · rfl
    · exact fun f => rfl

theorem ret_good {c : Config α χ} (hg : Good c) {p : Task} {rest : List Task} {v : α}
    (ht : c.thread = .front p .task rest) :
    Good { c with thread := .front p (.set_value v) rest, log := c.log ++ [.returned p v] } := by
  have hun : ∀ f, total (keeps f) (unset { c with
      thread := .front p (.set_value v) rest, log := c.log ++ [.returned p v] }) =
      total (keeps f) (unset c) := by
    intro f
    rw [total_unset, total_unset, ht]
    rfl
  refine ⟨?_, ?_, ?_, ?_⟩
  · intro f
    rw [hun f]
    exact hg.one f
  · intro f hf
    rw [hun f] at hf
    exact hg.fresh f hf
  · intro f w hw
    rcases List.mem_append.mp hw with hw | hw
    · rcases hg.value f w hw with hst | ⟨rest', hr⟩
      · exact Or.inl hst
      · rw [ht] at hr
        cases hr
    · cases List.mem_singleton.mp hw
      exact Or.inr ⟨rest, rfl⟩
  · constructor
    · rintro ⟨g, x, hx⟩
      rcases List.mem_append.mp hx with hx | hx
      · exact hg.threw.mp ⟨g, x, hx⟩
      · cases List.mem_singleton.mp hx
    · intro h
      obtain ⟨g, x, hx⟩ := hg.threw.mpr h
      exact ⟨g, x, List.mem_append_left _ hx⟩

theorem add_continuation_good {c : Config α χ} (hg : Good c) {f : FutureId} {s s' : Future α χ}
    (hs : c.futures[f]? = some s) (h : add_continuation s () = some s') :
    Good { c with futures := c.futures.set f s' } := by
  have hlt := (List.getElem?_eq_some_iff.mp hs).1
  have hsame : s'.value_ = s.value_ ∧ ready s' = ready s := by
    unfold add_continuation at h
    split at h
    · cases h
    · cases h
      exact ⟨rfl, rfl⟩
  -- the other futures are as they were, and this one holds what it held
  have hkeep : ∀ (g : FutureId) (t : Future α χ), c.futures[g]? = some t →
      ∃ t', (c.futures.set f s')[g]? = some t' ∧ t'.value_ = t.value_ ∧ ready t' = ready t := by
    intro g t hg
    by_cases hgf : g = f
    · subst hgf
      rw [hs] at hg
      cases hg
      exact ⟨s', List.getElem?_set_self hlt, hsame⟩
    · exact ⟨t, (List.getElem?_set_ne (Ne.symm hgf)).trans hg, rfl, rfl⟩
  refine ⟨hg.one, ?_, ?_, hg.threw⟩
  · intro g hpos
    obtain ⟨t, ht, hr⟩ := hg.fresh g hpos
    obtain ⟨t', ht', -, hr'⟩ := hkeep g t ht
    exact ⟨t', ht', hr'.trans hr⟩
  · intro g v hv
    rcases hg.value g v hv with ⟨t, ht, hval⟩ | hst
    · obtain ⟨t', ht', hval', -⟩ := hkeep g t ht
      exact Or.inl ⟨t', ht', hval'.trans hval⟩
    · exact Or.inr hst

theorem step_good {c c' : Config α χ} {e : Event α χ} (hg : Good c) (h : step c e = some c') :
    Good c' := by
  unfold step at h
  split at h
  · cases h
  split at h
  · cases h
    exact execute_good hg
  · cases h
    refine hg.moves (Or.inr rfl) (fun f => ?_)
    rw [total_append, total_append, total_unset]
    rfl
  · split at h
    · rename_i ht _
      cases h
      refine hg.moves (Or.inl ?_) (fun f => ?_)
      · rw [ht]
        rfl
      · rw [total_append, total_unset, ht]
        rfl
    · cases h
  · exact on_async_good hg h
  · split at h
    · rename_i ht
      cases h
      exact ret_good hg ht
    · cases h
  · split at h
    · cases h
      exact throw_good hg
    · cases h
  · split at h
    · cases h
    · rename_i s hs
      obtain ⟨s', hs', he⟩ := Option.map_eq_some_iff.mp h
      subst he
      exact add_continuation_good hg hs hs'

theorem reach_good {c : Config α χ} (h : Reach step anyEvent {} c) : Good c :=
  h.invariant init_good (fun _ _ _ hg _ hs => step_good hg hs)

/-! ## The loop under the futures -/

def Thread.place : Thread α → task_loop.Place Task
  | .uv_run => .uv_run
  | .swap => .swap
  | .tasks ts => .tasks ts
  | .front p _ ts => .front p ts

def Config.loop (c : Config α χ) : task_loop.Loop Task :=
  { task_queue_ := c.task_queue_, signalled := c.signalled, place := c.thread.place }

/-- A step moves the loop on, or it is a step of a task or of a setter. -/
theorem step_loop {c c' : Config α χ} {e : Event α χ} (h : step c e = some c') :
    c'.loop = c.loop ∨ ∃ e', task_loop.step c.loop e' = some c'.loop := by
  have moves : ∀ {d : Config α χ}, task_loop.on_async_new_task c.loop = some d.loop →
      d.loop = c.loop ∨ ∃ e', task_loop.step c.loop e' = some d.loop :=
    fun hd => Or.inr ⟨.on_async_new_task, hd⟩
  unfold step at h
  split at h
  · cases h
  split at h
  · cases h
    exact Or.inr ⟨.execute (some c.futures.length), rfl⟩
  · cases h
    exact Or.inr ⟨.execute none, rfl⟩
  · split at h
    · rename_i ht _
      cases h
      refine Or.inr ⟨.async_new_task_cb, ?_⟩
      simp only [task_loop.step, task_loop.async_new_task_cb, Config.loop, ht, Thread.place]
    · cases h
  · rename_i built
    unfold on_async_new_task at h
    split at h
    · cases h
    · rename_i ht
      split at h
      · rename_i hq
        cases h
        apply moves
        simp only [task_loop.on_async_new_task, Config.loop, ht, hq, Thread.place]
      · rename_i ts hq
        cases h
        apply moves
        cases hc : c.task_queue_ with
        | nil => exact absurd hc hq
        | cons t ts => simp only [task_loop.on_async_new_task, Config.loop, ht, hc, Thread.place]
    · rename_i ht
      cases h
      apply moves
      simp only [task_loop.on_async_new_task, Config.loop, ht, Thread.place]
    · rename_i p rest ht
      cases h
      apply moves
      simp only [task_loop.on_async_new_task, Config.loop, ht, Thread.place]
    · cases h
    · rename_i v rest ht
      cases h
      apply moves
      simp only [task_loop.on_async_new_task, Config.loop, ht, Thread.place]
    · rename_i f v rest ht
      unfold store at h
      split at h
      · cases h
      · split at h
        · cases h
          refine Or.inl ?_
          simp only [Config.loop, ht, Thread.place]
        · cases h
          exact Or.inl rfl
        · cases h
          exact Or.inl rfl
    · rename_i p rest ht
      cases h
      apply moves
      simp only [task_loop.on_async_new_task, Config.loop, ht, Thread.place]
    · rename_i p n rest ht
      cases h
      refine Or.inl ?_
      simp only [Config.loop, ht, Thread.place]
  · split at h
    · rename_i ht
      cases h
      refine Or.inl ?_
      simp only [Config.loop, ht, Thread.place]
    · cases h
  · split at h
    · cases h
      exact Or.inl rfl
    · cases h
  · split at h
    · cases h
    · rename_i s hs
      obtain ⟨s', hs', he⟩ := Option.map_eq_some_iff.mp h
      subst he
      exact Or.inl rfl

/-- So the functions of a run with futures are called as those of the loop alone. -/
theorem reach_loop {c : Config α χ} (h : Reach step anyEvent {} c) :
    Reach task_loop.step anyEvent {} c.loop := by
  refine h.invariant (P := fun c : Config α χ => Reach task_loop.step anyEvent {} c.loop)
    (Reach.start _) ?_
  intro d e d' hd _ hs
  rcases step_loop hs with he | ⟨e', he⟩
  · rw [he]
    exact hd
  · exact hd.next trivial he

/-! ## The law of mirrors -/

/-- The future of every task mirrors it, no exception gets out of a task to the callback of libuv,
which would terminate the program, and the other tasks still run after it. -/
structure Mirrors (c : Config α χ) : Prop where
  value : ∀ f v, .returned (some f) v ∈ c.log → Stored c f v ∨ Storing c f v
  exception : ∀ (f : FutureId) x, .threw (some f) x ∈ c.log →
    ∃ s, c.futures[f]? = some s ∧ s.exception_ = some x
  contained : c.terminated = false
  others : ∀ p x, .threw p x ∈ c.log → ∃ e c', step c e = some c'

theorem mirrors_iff {c : Config α χ} (h : Reach step anyEvent {} c) :
    Mirrors c ↔ ∀ p x, .threw p x ∉ c.log := by
  have hg := reach_good h
  constructor
  · intro hm p x hx
    have := hg.threw.mp ⟨p, x, hx⟩
    rw [hm.contained] at this
    cases this
  · intro hno
    refine ⟨hg.value, ?_, ?_, ?_⟩
    · intro f x hx
      exact absurd hx (hno (some f) x)
    · refine Bool.eq_false_iff.mpr (fun ht => ?_)
      obtain ⟨p, x, hx⟩ := hg.threw.mpr ht
      exact hno p x hx
    · intro p x hx
      exact absurd hx (hno p x)

/-- In a task queue and in the event loop, the future of every task mirrors it exactly in the runs
in which no task throws. -/
theorem a_future_mirrors_its_task (n : Nat) (c : ltl.task_queue.Config α χ)
    (hc : Reach ltl.task_queue.step anyEvent (ltl.task_queue.init α χ n) c)
    (d : Config α χ) (hd : Reach step anyEvent {} d) :
    (ltl.task_queue.Mirrors c ↔ ∀ p x, .threw p x ∉ c.log) ∧
      (Mirrors d ↔ ∀ p x, .threw p x ∉ d.log) := by
  constructor
  · exact ltl.task_queue.mirrors_iff n c hc
  · exact mirrors_iff hd

/-- The second task stays in the queue for ever, and the future of the first is never ready. -/
theorem an_exception_terminates_the_program :
    (¬ ∀ n (c : ltl.task_queue.Config Unit Unit),
      Reach ltl.task_queue.step anyEvent (ltl.task_queue.init Unit Unit n) c →
        ltl.task_queue.Mirrors c) ∧
      ¬ ∀ d : Config Unit Unit, Reach step anyEvent {} d → Mirrors d := by
  constructor
  · intro hall
    have hrun : ∃ c, run ltl.task_queue.step (ltl.task_queue.init Unit Unit 1)
        [.push_back none 0 .non_resumable, .push_back none 0 .non_resumable, .worker 0 none,
          .worker 0 none, .throw_ 0 ()] = some c ∧ c.fault = some .terminated ∧
        (c.queues[0]?.map (·.queue_.length)) = some 1 := ⟨_, rfl, rfl, rfl⟩
    obtain ⟨c, hrun, hf, -⟩ := hrun
    exact (hall 1 c (reach_anyEvent hrun)).contained hf
  · intro hall
    have hrun : ∃ d : Config Unit Unit, run step {} [.execute, .execute, .async_new_task_cb,
        .on_async_new_task none, .on_async_new_task none, .throw_ ()] = some d ∧
        d.terminated = true ∧ d.thread = .front (some 0) .task [some 1] := ⟨_, rfl, rfl, rfl⟩
    obtain ⟨d, hrun, ht, -⟩ := hrun
    have hok := (hall d (reach_anyEvent hrun)).contained
    rw [ht] at hok
    cases hok

theorem a_future_mirrors_its_task_here :
    (∃ c : ltl.task_queue.Config Unit Unit,
      Reach ltl.task_queue.step anyEvent (ltl.task_queue.init Unit Unit 1) c ∧
        .returned (some 0) () ∈ c.log ∧ ltl.task_queue.Mirrors c) ∧
      ∃ d : Config Unit Unit, Reach step anyEvent {} d ∧ .threw (some 0) () ∈ d.log ∧
        ¬ Mirrors d := by
  have hc : ∃ c, run ltl.task_queue.step (ltl.task_queue.init Unit Unit 1)
      [.push_back none 0 .non_resumable, .worker 0 none, .worker 0 none, .ret 0 ()] = some c ∧
      c.log = [.returned (some 0) ()] := ⟨_, rfl, rfl⟩
  have hd : ∃ d : Config Unit Unit, run step {} [.execute, .async_new_task_cb,
      .on_async_new_task none, .on_async_new_task none, .throw_ ()] = some d ∧
      d.log = [.threw (some 0) ()] := ⟨_, rfl, rfl⟩
  obtain ⟨c, hc, hlog⟩ := hc
  obtain ⟨d, hd, hlog'⟩ := hd
  have hc := reach_anyEvent hc
  have hd := reach_anyEvent hd
  have hlaw := a_future_mirrors_its_task 1 c hc d hd
  refine ⟨⟨c, hc, ?_, hlaw.1.mpr ?_⟩, d, hd, ?_, fun hm => hlaw.2.mp hm (some 0) () ?_⟩
  · rw [hlog]
    exact List.mem_cons_self
  · intro p x hx
    rw [hlog] at hx
    cases List.mem_singleton.mp hx
  · rw [hlog']
    exact List.mem_cons_self
  · rw [hlog']
    exact List.mem_cons_self

end lio.iomanager
