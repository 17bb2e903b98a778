-- The thread of the event loop (iomanager.cpp): functions are queued under a
-- mutex from any thread, and the callback of libuv swaps them out and calls
-- them one after the other, until it finds none.
import Ltl.Runs

open runs

namespace lio.task_loop

/-- Where the thread of the loop is: in `uv_run` outside of this callback, before the swap of
`on_async_new_task`, before the next turn of its inner loop, or in the call of the first function
of `tasks`, which is destroyed by `pop_front` at the end of the turn. -/
inductive Place (τ : Type) where
  | uv_run
  | swap
  | tasks (tasks : List τ)
  | front (task : τ) (tasks : List τ)
  deriving DecidableEq, Repr

/-- `signalled` is the state of `async_signal_task_`. -/
structure Loop (τ : Type) where
  task_queue_ : List τ := []
  signalled : Bool := false
  place : Place τ := .uv_run
  deriving DecidableEq, Repr

variable {τ : Type}

/-- The functions that are swapped out and not called. -/
def Place.batch : Place τ → List τ
  | .tasks ts => ts
  | .front _ ts => ts
  | _ => []

/-- The functions that are not called. -/
def Loop.queued (l : Loop τ) : List τ := l.place.batch ++ l.task_queue_

/-- `impl::execute`: one section under `mutex_`, with `uv_async_send` in it. -/
def execute (l : Loop τ) (task : τ) : Loop τ :=
  { l with task_queue_ := l.task_queue_ ++ [task], signalled := true }

/-- libuv calls back at least once after `uv_async_send`. It may call back more often. -/
def async_new_task_cb (l : Loop τ) : Option (Loop τ) :=
  match l.place with
  | .uv_run => some { l with signalled := false, place := .swap }
  | _ => none

def on_async_new_task (l : Loop τ) : Option (Loop τ) :=
  match l.place with
  | .uv_run => none
  | .swap =>
    match l.task_queue_ with
    | [] => some { l with place := .uv_run }
    | ts => some { l with task_queue_ := [], place := .tasks ts }
  | .tasks [] => some { l with place := .swap }
  | .tasks (task :: ts) => some { l with place := .front task ts }
  | .front _ ts => some { l with place := .tasks ts }

/-- The function that this step of the thread calls. -/
def Loop.next (l : Loop τ) : Option τ :=
  match l.place with
  | .tasks (task :: _) => some task
  | _ => none

inductive Event (τ : Type) where
  | execute (task : τ)
  | async_new_task_cb
  | on_async_new_task
  deriving DecidableEq, Repr

def step (l : Loop τ) : Event τ → Option (Loop τ)
  | .execute task => some (execute l task)
  | .async_new_task_cb => async_new_task_cb l
  | .on_async_new_task => on_async_new_task l

/-! ## What a step does to the queued functions -/

theorem queued_execute (l : Loop τ) (task : τ) : (execute l task).queued = l.queued ++ [task] :=
  (List.append_assoc _ _ _).symm

theorem queued_async {l l' : Loop τ} (h : async_new_task_cb l = some l') :
    l'.queued = l.queued := by
  unfold async_new_task_cb at h
  split at h
  · rename_i hp
    cases h
    unfold Loop.queued
    rw [hp]
    rfl
  · cases h

/-- The thread calls the first of the queued functions, or none. -/
theorem queued_next {l l' : Loop τ} (h : on_async_new_task l = some l') :
    l.queued = l.next.toList ++ l'.queued := by
  unfold on_async_new_task at h
  unfold Loop.queued Loop.next
  split at h
  · cases h
  · rename_i hp
    rw [hp]
    split at h
    · rename_i hq
      cases h
      rfl
    · cases h
      simp [Place.batch]
  · rename_i hp
    cases h
    rw [hp]
    rfl
  · rename_i task ts hp
    cases h
    rw [hp]
    rfl
  · rename_i task ts hp
    cases h
    rw [hp]
    rfl

/-! ## What a step destroys -/

/-- The function that this step of the thread destroys. -/
def Loop.popped (l : Loop τ) : Option τ :=
  match l.place with
  | .front task _ => some task
  | _ => none

/-- The functions that are not destroyed: the one that is being called, and those not called. -/
def Loop.stored (l : Loop τ) : List τ := l.popped.toList ++ l.queued

theorem stored_execute (l : Loop τ) (task : τ) : (execute l task).stored = l.stored ++ [task] := by
  show l.popped.toList ++ (execute l task).queued = _
  rw [queued_execute, ← List.append_assoc]
  rfl

theorem stored_async {l l' : Loop τ} (h : async_new_task_cb l = some l') :
    l'.stored = l.stored := by
  unfold Loop.stored
  rw [queued_async h]
  unfold async_new_task_cb at h
  split at h
  · rename_i hp
    cases h
    unfold Loop.popped
    rw [hp]
  · cases h

/-- The functions stay in their order until `pop_front`. -/
theorem stored_next {l l' : Loop τ} (h : on_async_new_task l = some l') :
    l.stored = l.popped.toList ++ l'.stored := by
  have hcalled : l.next.toList = l'.popped.toList := by
    unfold on_async_new_task at h
    unfold Loop.next Loop.popped
    split at h
    · cases h
    · rename_i hp
      rw [hp]
      split at h
      · cases h
        rfl
      · cases h
        rfl
    all_goals
      rename_i hp
      cases h
      rw [hp]
  unfold Loop.stored
  rw [queued_next h, hcalled]

/-! ## The order of the calls -/

/-- The functions in the order in which `execute` took the mutex, and in the order in which they
were called. -/
structure History (τ : Type) where
  posted : List τ := []
  called : List τ := []
  deriving DecidableEq, Repr

def recordTasks (l : Loop τ) (e : Event τ) (_ : Loop τ) (h : History τ) : History τ :=
  match e with
  | .execute task => { h with posted := h.posted ++ [task] }
  | .async_new_task_cb => h
  | .on_async_new_task => { h with called := h.called ++ l.next.toList }

/-- A step of the thread of the loop that is sure to come. -/
def Own (s : Loop τ × History τ) : Event τ → Prop
  | .execute _ => False
  | .async_new_task_cb => s.1.signalled = true
  | .on_async_new_task => True

/-- While functions wait in the queue, a callback is to come or the thread is in one. -/
def Awake (l : Loop τ) : Prop := l.task_queue_ ≠ [] → l.signalled = true ∨ l.place ≠ .uv_run

/-- What is said of the queue. `looks` is that the callback returns only from a look at the empty
queue, and `finishes` that the thread, left alone, calls everything that was posted. -/
structure InOrder (l : Loop τ) (h : History τ) : Prop where
  sequence : h.called ++ l.place.batch ++ l.task_queue_ = h.posted
  awake : Awake l
  looks : ∀ e l', step l e = some l' → l.place ≠ .uv_run → l'.place = .uv_run →
    l.place = .swap ∧ l.task_queue_ = []
  finishes : ∃ l', Reach (recorded step recordTasks) Own (l, h) (l', ⟨h.posted, h.posted⟩) ∧
    l'.place = .uv_run ∧ l'.task_queue_ = []

theorem step_sequence {l l' : Loop τ} {h : History τ} {e : Event τ}
    (hs : h.called ++ l.queued = h.posted) (hstep : step l e = some l') :
    (recordTasks l e l' h).called ++ l'.queued = (recordTasks l e l' h).posted := by
  cases e with
  | execute task =>
    cases hstep
    show h.called ++ (execute l task).queued = h.posted ++ [task]
    rw [queued_execute, ← List.append_assoc, hs]
  | async_new_task_cb =>
    show h.called ++ l'.queued = h.posted
    rw [queued_async hstep, hs]
  | on_async_new_task =>
    show h.called ++ l.next.toList ++ l'.queued = h.posted
    rw [List.append_assoc, ← queued_next hstep, hs]

theorem step_awake {l l' : Loop τ} {e : Event τ} (hstep : step l e = some l') : Awake l' := by
  cases e with
  | execute task =>
    cases hstep
    exact fun _ => Or.inl rfl
  | async_new_task_cb =>
    replace hstep : async_new_task_cb l = some l' := hstep
    unfold async_new_task_cb at hstep
    split at hstep
    · cases hstep
      exact fun _ => Or.inr nofun
    · cases hstep
  | on_async_new_task =>
    replace hstep : on_async_new_task l = some l' := hstep
    unfold on_async_new_task at hstep
    split at hstep
    · cases hstep
    · split at hstep
      · rename_i hq
        cases hstep
        exact fun hne => absurd hq hne
      · cases hstep
        exact fun hne => absurd rfl hne
    · cases hstep
      exact fun _ => Or.inr nofun
    · cases hstep
      exact fun _ => Or.inr nofun
    · cases hstep
      exact fun _ => Or.inr nofun

/-- The callback returns when it has swapped out nothing. -/
theorem returns_empty {l l' : Loop τ} {e : Event τ} (hstep : step l e = some l')
    (hp : l.place ≠ .uv_run) (hp' : l'.place = .uv_run) :
    l.place = .swap ∧ l.task_queue_ = [] := by
  cases e with
  | execute task =>
    cases hstep
    exact absurd hp' hp
  | async_new_task_cb =>
    replace hstep : async_new_task_cb l = some l' := hstep
    unfold async_new_task_cb at hstep
    split at hstep
    · rename_i hu
      exact absurd hu hp
    · cases hstep
  | on_async_new_task =>
    replace hstep : on_async_new_task l = some l' := hstep
    unfold on_async_new_task at hstep
    split at hstep
    · cases hstep
    · rename_i hu
      split at hstep
      · rename_i hq
        exact ⟨hu, hq⟩
      · cases hstep
        cases hp'
    all_goals
      cases hstep
      cases hp'

/-! ## The thread, left alone -/

theorem goes_on {s s' s'' : Loop τ × History τ} (h : Reach (recorded step recordTasks) Own s s')
    (hs : recorded step recordTasks s' .on_async_new_task = some s'') :
    Reach (recorded step recordTasks) Own s s'' := h.next (e := .on_async_new_task) trivial hs

/-- The inner loop calls what is left of its batch. -/
theorem batch_finishes (ts : List τ) (l : Loop τ) (h : History τ) (hp : l.place = .tasks ts) :
    Reach (recorded step recordTasks) Own (l, h)
      ({ l with place := .tasks [] }, { h with called := h.called ++ ts }) := by
  induction ts generalizing l h with
  | nil =>
    rw [List.append_nil, ← hp]
    exact Reach.start _
  | cons task ts ih =>
    have hcall : recorded step recordTasks (l, h) .on_async_new_task =
        some ({ l with place := .front task ts }, { h with called := h.called ++ [task] }) := by
      simp only [recorded, step, on_async_new_task, recordTasks, Loop.next, hp, Option.map_some,
        Option.toList_some]
    have hpop : recorded step recordTasks
        ({ l with place := .front task ts }, { h with called := h.called ++ [task] })
        .on_async_new_task =
        some ({ l with place := .tasks ts }, { h with called := h.called ++ [task] }) := by
      simp only [recorded, step, on_async_new_task, recordTasks, Loop.next, Option.map_some,
        Option.toList_none, List.append_nil]
    have hrest := ih { l with place := .tasks ts } { h with called := h.called ++ [task] } rfl
    rw [List.append_assoc, List.singleton_append] at hrest
    exact (goes_on (goes_on (Reach.start _) hcall) hpop).trans hrest

/-- One turn of the outer loop, from the swap to the next one. -/
theorem turn_finishes (l : Loop τ) (h : History τ) (hp : l.place = .swap) (hq : l.task_queue_ ≠ []) :
    Reach (recorded step recordTasks) Own (l, h)
      ({ l with task_queue_ := [], place := .swap },
        { h with called := h.called ++ l.task_queue_ }) := by
  have hswap : recorded step recordTasks (l, h) .on_async_new_task =
      some ({ l with task_queue_ := [], place := .tasks l.task_queue_ }, h) := by
    cases hc : l.task_queue_ with
    | nil => exact absurd hc hq
    | cons task ts =>
      simp only [recorded, step, on_async_new_task, recordTasks, Loop.next, hp, hc,
        Option.map_some, Option.toList_none, List.append_nil]
  have hback : ∀ g : History τ, recorded step recordTasks
      ({ l with task_queue_ := [], place := .tasks [] }, g) .on_async_new_task =
      some ({ l with task_queue_ := [], place := .swap }, g) := by
    intro g
    simp only [recorded, step, on_async_new_task, recordTasks, Loop.next, Option.map_some,
      Option.toList_none, List.append_nil]
  have hbatch := batch_finishes l.task_queue_
    { l with task_queue_ := [], place := .tasks l.task_queue_ } h rfl
  exact goes_on ((goes_on (Reach.start _) hswap).trans hbatch) (hback _)

/-- From the swap on, the callback calls all that is queued and returns. -/
theorem swap_finishes (l : Loop τ) (h : History τ) (hp : l.place = .swap) :
    Reach (recorded step recordTasks) Own (l, h)
      ({ l with task_queue_ := [], place := .uv_run },
        { h with called := h.called ++ l.task_queue_ }) := by
  have hlast : ∀ (k : Loop τ) (g : History τ), k.place = .swap → k.task_queue_ = [] →
      recorded step recordTasks (k, g) .on_async_new_task =
        some ({ k with task_queue_ := [], place := .uv_run }, g) := by
    intro k g hk hq
    simp only [recorded, step, on_async_new_task, recordTasks, Loop.next, hk, hq, Option.map_some,
      Option.toList_none, List.append_nil]
  by_cases hq : l.task_queue_ = []
  · rw [hq, List.append_nil]
    exact goes_on (Reach.start _) (hlast l h hp hq)
  · exact goes_on (turn_finishes l h hp hq) (hlast _ _ rfl rfl)

/-- From the inner loop on too. -/
theorem tasks_finishes (ts : List τ) (l : Loop τ) (h : History τ) (hp : l.place = .tasks ts) :
    Reach (recorded step recordTasks) Own (l, h)
      ({ l with task_queue_ := [], place := .uv_run },
        { h with called := h.called ++ ts ++ l.task_queue_ }) := by
  have hback : recorded step recordTasks
      ({ l with place := .tasks [] }, { h with called := h.called ++ ts }) .on_async_new_task =
      some ({ l with place := .swap }, { h with called := h.called ++ ts }) := by
    simp only [recorded, step, on_async_new_task, recordTasks, Loop.next, Option.map_some,
      Option.toList_none, List.append_nil]
  exact (goes_on (batch_finishes ts l h hp) hback).trans
    (swap_finishes { l with place := .swap } { h with called := h.called ++ ts } rfl)

theorem thread_finishes (l : Loop τ) (h : History τ) (ha : Awake l) :
    ∃ l' : Loop τ, Reach (recorded step recordTasks) Own (l, h)
        (l', { h with called := h.called ++ l.queued }) ∧
      l'.place = .uv_run ∧ l'.task_queue_ = [] := by
  unfold Loop.queued
  cases hp : l.place with
  | uv_run =>
    by_cases hq : l.task_queue_ = []
    · refine ⟨l, ?_, hp, hq⟩
      rw [hq, show Place.batch (.uv_run : Place τ) = [] from rfl, List.append_nil, List.append_nil]
      exact Reach.start _
    · have hsig : l.signalled = true := (ha hq).resolve_right (fun hne => hne hp)
      have hcb : recorded step recordTasks (l, h) .async_new_task_cb =
          some ({ l with signalled := false, place := .swap }, h) := by
        simp only [recorded, step, async_new_task_cb, recordTasks, hp, Option.map_some]
      have hfirst : Reach (recorded step recordTasks) Own (l, h)
          ({ l with signalled := false, place := .swap }, h) :=
        (Reach.start _).next (e := .async_new_task_cb) hsig hcb
      exact ⟨{ l with signalled := false, task_queue_ := [], place := .uv_run },
        hfirst.trans (swap_finishes { l with signalled := false, place := .swap } h rfl), rfl, rfl⟩
  | swap =>
    exact ⟨{ l with task_queue_ := [], place := .uv_run }, swap_finishes l h hp, rfl, rfl⟩
  | tasks ts =>
    refine ⟨{ l with task_queue_ := [], place := .uv_run }, ?_, rfl, rfl⟩
    rw [← List.append_assoc]
    exact tasks_finishes ts l h hp
  | front task ts =>
    have hpop : recorded step recordTasks (l, h) .on_async_new_task =
        some ({ l with place := .tasks ts }, h) := by
      simp only [recorded, step, on_async_new_task, recordTasks, Loop.next, hp, Option.map_some,
        Option.toList_none, List.append_nil]
    refine ⟨{ l with task_queue_ := [], place := .uv_run }, ?_, rfl, rfl⟩
    rw [← List.append_assoc]
    exact (goes_on (Reach.start _) hpop).trans
      (tasks_finishes ts { l with place := .tasks ts } h rfl)

/-- For any number of threads that call `execute` and any interleaving with the thread of the loop,
the posted functions are called once and in order, and none of them is left waiting. -/
theorem posted_tasks_run_in_order (l : Loop τ) (h : History τ)
    (hr : Reach (recorded step recordTasks) anyEvent ({}, {}) (l, h)) : InOrder l h := by
  have hinv : h.called ++ l.queued = h.posted ∧ Awake l := by
    refine hr.invariant (P := fun s => s.2.called ++ s.1.queued = s.2.posted ∧ Awake s.1)
      ⟨rfl, fun hne => absurd rfl hne⟩ ?_
    rintro s e s' ⟨hseq, -⟩ - hs
    obtain ⟨hs, hrec⟩ := recorded_eq hs
    rw [hrec]
    exact ⟨step_sequence hseq hs, step_awake hs⟩
  obtain ⟨hseq, ha⟩ := hinv
  refine ⟨?_, ha, fun e l' => returns_empty, ?_⟩
  · rw [List.append_assoc]
    exact hseq
  · obtain ⟨l', hl', hp, hq⟩ := thread_finishes l h ha
    rw [hseq] at hl'
    exact ⟨l', hl', hp, hq⟩

/-- The first function posts the third one while it runs. -/
theorem posted_tasks_run_in_order_here : ∃ (l : Loop Nat) (h : History Nat),
    Reach (recorded step recordTasks) anyEvent ({}, {}) (l, h) ∧ h = ⟨[7, 8, 9], [7, 8]⟩ ∧
      l.task_queue_ = [9] ∧ InOrder l h := by
  have hrun : ∃ (l : Loop Nat) (h : History Nat), run (recorded step recordTasks) ({}, {})
      [.execute 7, .execute 8, .async_new_task_cb, .on_async_new_task, .on_async_new_task,
        .execute 9, .on_async_new_task, .on_async_new_task] = some (l, h) ∧
      h = ⟨[7, 8, 9], [7, 8]⟩ ∧ l.task_queue_ = [9] := ⟨_, _, rfl, rfl, rfl⟩
  obtain ⟨l, h, hrun, hh, hq⟩ := hrun
  have hr : Reach (recorded step recordTasks) anyEvent ({}, {}) (l, h) :=
    reach_anyEvent hrun
  exact ⟨l, h, hr, hh, hq, posted_tasks_run_in_order l h hr⟩

end lio.task_loop
