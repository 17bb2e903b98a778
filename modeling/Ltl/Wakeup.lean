-- The worker is never asleep with something to do. `task_complete` counts
-- down before it takes the mutex, so here it is two steps, and every other
-- thread may take the mutex in between.
import Ltl.Runs
import Ltl.TaskQueue

open ltl.future_state runs

namespace ltl.task_queue

variable {α χ : Type}

/-! ## task_complete in two steps -/

/-- What `task_complete` does before it takes the mutex. -/
def TaskQueue.count_down (tq : TaskQueue α) (ctx : ContextId) : TaskQueue α :=
  { tq with
    in_progress_count_ := tq.in_progress_count_ - 1
    free_task_contexts_ := tq.free_task_contexts_ ++ [ctx] }

/-- The part of `task_complete` under the mutex. -/
def TaskQueue.notify_join (tq : TaskQueue α) : TaskQueue α := if tq.join_ then tq.notify_one else tq

theorem task_complete_eq (tq : TaskQueue α) (ctx : ContextId) :
    tq.task_complete ctx =
      if (tq.count_down ctx).in_progress_count_ = 0 then (tq.count_down ctx).notify_join
      else tq.count_down ctx := by
  unfold TaskQueue.task_complete TaskQueue.count_down TaskQueue.notify_join
  dsimp only
  by_cases hc : tq.in_progress_count_ - 1 = 0 <;> by_cases hj : tq.join_ = true <;> simp [hc, hj]

/-- A configuration with the workers that have counted down to zero and come to the mutex of
`task_complete`. -/
structure Split (α χ : Type) where
  config : Config α χ
  completing : List QueueId := []
  deriving DecidableEq, Repr

/-- The queue and the context of a worker whose next step is in `task_complete`. -/
def finishing (c : Config α χ) (q : QueueId) :
    Option (TaskQueue α × ContextId × TaskContext α) :=
  match c.queues[q]? with
  | none => none
  | some tq =>
    match tq.worker with
    | .fiber i =>
      match c.contexts[i]? with
      | some ctx => if ctx.pc matches .finished_ then some (tq, i, ctx) else none
      | none => none
    | _ => none

/-- The context of `q` comes back from `task_complete`, which leaves the queue as `tq`. -/
def Config.completed (c : Config α χ) (q : QueueId) (tq : TaskQueue α) (i : ContextId)
    (ctx : TaskContext α) : Config α χ :=
  ((c.setContext i { ctx with pc := .last_yield }).setQueue q tq).note [.finished i]

def baseStep (s : Split α χ) (e : Event α χ) : Option (Split α χ) :=
  (step s.config e).map (fun c => { s with config := c })

/-- `step`, with the two steps of `task_complete` in the place of its one. -/
def splitStep (s : Split α χ) (e : Event α χ) : Option (Split α χ) :=
  match e with
  | .worker q _ =>
    match finishing s.config q with
    | none => baseStep s e
    | some (tq, i, ctx) =>
      if s.config.fault.isSome then none
      else if q ∈ s.completing then
        some ⟨s.config.completed q tq.notify_join i ctx, s.completing.filter (· ≠ q)⟩
      else if (tq.count_down i).in_progress_count_ = 0 then
        some ⟨s.config.setQueue q (tq.count_down i), q :: s.completing⟩
      else some ⟨s.config.completed q (tq.count_down i) i ctx, s.completing⟩
  | _ => baseStep s e

theorem finishing_cases {c : Config α χ} {q : QueueId} {tq : TaskQueue α} {i : ContextId}
    {ctx : TaskContext α} (h : finishing c q = some (tq, i, ctx)) :
    c.queues[q]? = some tq ∧ tq.worker = .fiber i ∧ c.contexts[i]? = some ctx ∧
      ctx.pc = .finished_ := by
  unfold finishing at h
  split at h
  · cases h
  · rename_i tq' hq
    split at h
    · rename_i i' hw
      split at h
      · rename_i ctx' hi
        split at h
        · rename_i hp
          cases h
          exact ⟨hq, hw, hi, hp⟩
        · cases h
      · cases h
    · cases h

/-! ## Asleep with nothing to do -/

/-- A worker that sleeps on `cv_` finds its condition false: there is no item, and no join that
it could complete. -/
def Rested (tq : TaskQueue α) : Prop :=
  tq.worker = .asleep → tq.queue_ = [] ∧ ¬ (tq.join_ = true ∧ tq.in_progress_count_ = 0)

theorem rested_of_awake {tq : TaskQueue α} (h : tq.worker ≠ .asleep) : Rested tq :=
  fun hw => absurd hw h

/-- After a notification nobody sleeps. -/
theorem awake_notify_one (tq : TaskQueue α) : tq.notify_one.worker ≠ .asleep := by
  unfold TaskQueue.notify_one
  split
  · simp
  · rename_i hw
    exact hw

theorem rested_notify_one (tq : TaskQueue α) : Rested tq.notify_one :=
  rested_of_awake (awake_notify_one tq)

/-- The first item wakes the worker, and before a later one it is awake already. -/
theorem rested_push_back {tq : TaskQueue α} (h : Rested tq) (wi : WorkItem) :
    Rested (tq.push_back wi) := by
  unfold TaskQueue.push_back
  dsimp only
  split
  · exact rested_notify_one _
  · rename_i hlen
    refine rested_of_awake (fun hw => hlen ?_)
    rw [(h hw).1]
    rfl

theorem rested_push_front {tq : TaskQueue α} (h : Rested tq) (wi : WorkItem) :
    Rested (tq.push_front wi) := by
  unfold TaskQueue.push_front
  dsimp only
  split
  · exact rested_notify_one _
  · rename_i hlen
    refine rested_of_awake (fun hw => hlen ?_)
    rw [(h hw).1]
    rfl

theorem rested_join (tq : TaskQueue α) : Rested tq.join := rested_notify_one _

theorem rested_next_item (tq : TaskQueue α) : Rested tq.next_item := by
  unfold TaskQueue.next_item
  split
  · exact rested_of_awake (by simp)
  · rename_i hj
    split
    · rename_i he
      intro _
      refine ⟨he, ?_⟩
      simpa [TaskQueue.join_possible] using hj
    · exact rested_of_awake (by simp)

theorem rested_count_down {tq : TaskQueue α} {i : ContextId} (hw : tq.worker = .fiber i)
    (j : ContextId) : Rested (tq.count_down j) := by
  refine rested_of_awake ?_
  unfold TaskQueue.count_down
  simp [hw]

theorem rested_notify_join {tq : TaskQueue α} (h : Rested tq) : Rested tq.notify_join := by
  unfold TaskQueue.notify_join
  split
  · exact rested_notify_one tq
  · exact h

theorem rested_task_complete {tq : TaskQueue α} {i : ContextId} (hw : tq.worker = .fiber i)
    (j : ContextId) : Rested (tq.task_complete j) := by
  rw [task_complete_eq]
  split
  · exact rested_notify_join (rested_count_down hw j)
  · exact rested_count_down hw j

/-! ## Every queue of a configuration -/

def AllRested (c : Config α χ) : Prop := ∀ tq ∈ c.queues, Rested tq

section
variable {c c' : Config α χ} {q : QueueId} {tq : TaskQueue α}

theorem AllRested.at (h : AllRested c) (hq : c.queues[q]? = some tq) : Rested tq :=
  h tq (List.mem_of_getElem? hq)

theorem AllRested.same (h : AllRested c) (hq : c'.queues = c.queues) : AllRested c' := by
  unfold AllRested at *
  rw [hq]
  exact h

theorem AllRested.setQueue (h : AllRested c) (hr : Rested tq) : AllRested (c.setQueue q tq) := by
  intro t ht
  rcases List.mem_or_eq_of_mem_set ht with h1 | h1
  · exact h t h1
  · exact h1 ▸ hr

theorem AllRested.completed (h : AllRested c) (hr : Rested tq) (i : ContextId)
    (ctx : TaskContext α) : AllRested (c.completed q tq i ctx) := by
  have h1 : AllRested ((c.setContext i { ctx with pc := .last_yield }).setQueue q tq) :=
    (h.same rfl).setQueue hr
  exact h1.same rfl

theorem init_allRested (n : Nat) : AllRested (init α χ n) := by
  intro tq htq
  have htq := List.eq_of_mem_replicate htq
  subst htq
  exact rested_of_awake (by simp)

/-! ## What each function leaves -/

theorem resume_rested (h : AllRested c) (i : ContextId) (n : Option AwaitId) :
    AllRested (resume c q tq i n) := by
  unfold resume
  split
  · exact h.same rfl
  · split
    · exact h.same rfl
    · rename_i ctx hi
      split
      · exact h.same rfl
      · split
        · exact h.same rfl
        · rename_i pc hpc
          have hs : AllRested (c.setContext i { ctx with pc := pc }) := h.same rfl
          exact hs.setQueue (rested_of_awake (by simp))

theorem yield_rested (h : AllRested c) (i : ContextId) (ctx : TaskContext α) (pc : Pc α) :
    AllRested (yield c q tq i ctx pc) := by
  unfold yield
  split
  · have hs : AllRested (c.setContext i { ctx with pc := pc }) := h.same rfl
    exact hs.setQueue (rested_of_awake (by simp))
  · exact h.same rfl

theorem run_in_new_context_rested (h : AllRested c) {func : Option FutureId}
    (hs : run_in_new_context c q tq func = some c') : AllRested c' := by
  unfold run_in_new_context at hs
  split at hs
  · cases hs
    exact h.same rfl
  · split at hs
    · cases hs
      apply resume_rested
      exact h.same rfl
    · split at hs
      · cases hs
      · cases hs
        apply resume_rested
        exact h.same rfl

theorem pushResume_rested (h : AllRested c) {f : FutureId} {i : ContextId} {n : AwaitId}
    (hs : pushResume c f i n = some c') : AllRested c' := by
  unfold pushResume at hs
  split at hs
  · cases hs
  · split at hs
    · cases hs
      exact h.same rfl
    · rename_i q' ha
      split at hs
      · cases hs
      · rename_i tq' hq'
        cases hs
        have h1 : AllRested (c.setQueue q' (tq'.push_front (.resume_task i n))) :=
          h.setQueue (rested_push_front (h.at hq') _)
        exact h1.same rfl

theorem wrapped_function_queues {p : Option FutureId} {s : Stage α} {b : Option χ} {r : Next α}
    (hs : wrapped_function c p s b = some (c', r)) : c'.queues = c.queues := by
  unfold wrapped_function at hs
  split at hs
  · cases hs
  · cases hs
    rfl
  · split at hs
    · cases hs
    · split at hs <;> cases hs <;> rfl
  · split at hs <;> cases hs
    rfl

theorem fiberStep_rested (h : AllRested c) {i : ContextId} {ctx : TaskContext α} {b : Option χ}
    (hw : tq.worker = .fiber i) (hs : fiberStep c q tq i ctx b = some c') : AllRested c' := by
  unfold fiberStep at hs
  split at hs
  · cases hs
  · cases hs
    exact h.same rfl
  · split at hs
    · cases hs
    all_goals
      rename_i heq
      cases hs
      have h1 := h.same (wrapped_function_queues heq)
      exact h1.same rfl
  · split at hs
    · cases hs
    · dsimp only at hs
      split at hs <;> cases hs <;> exact h.same rfl
  · obtain ⟨c1, h1, rfl⟩ := Option.map_eq_some_iff.mp hs
    exact (pushResume_rested h h1).same rfl
  · cases hs
    apply yield_rested
    exact h.same rfl
  · cases hs
  · split at hs
    · cases hs
    · split at hs <;> cases hs
      exact h.same rfl
  · cases hs
    exact h.completed (rested_task_complete hw i) i ctx
  · cases hs
    exact yield_rested h _ _ _

theorem workerStep_rested (h : AllRested c) {b : Option χ}
    (hs : workerStep c q tq b = some c') : AllRested c' := by
  unfold workerStep at hs
  split at hs
  · cases hs
  · cases hs
    exact h.setQueue (rested_next_item tq)
  · cases hs
    exact h.setQueue (rested_of_awake (by simp))
  · cases hs
    exact h.setQueue (rested_of_awake (by simp))
  · exact run_in_new_context_rested h hs
  · cases hs
    apply resume_rested
    exact h.same rfl
  · split at hs
    · cases hs
    · rename_i heq
      cases hs
      exact (h.same (wrapped_function_queues heq)).setQueue (rested_of_awake (by simp))
    · rename_i heq
      cases hs
      exact (h.same (wrapped_function_queues heq)).setQueue (rested_of_awake (by simp))
    · rename_i heq
      cases hs
      exact h.same (wrapped_function_queues heq)
  · rename_i i hw
    split at hs
    · cases hs
    · exact fiberStep_rested h hw hs
  · cases hs

theorem await_rested (h : AllRested c) {f : FutureId} {ctx : Option (ContextId × TaskContext α)}
    (hs : await c f ctx = some c') : AllRested c' := by
  unfold await at hs
  split at hs
  · cases hs
  · split at hs
    · cases hs
      exact h
    · split at hs <;> cases hs
      exact h.same rfl

theorem returned_rested (h : AllRested c) (p : Option FutureId) (v : α)
    (ctx : Option (ContextId × TaskContext α)) : AllRested (returned c q tq p v ctx) := by
  unfold returned
  dsimp only
  split
  · exact (h.same rfl).setQueue (rested_of_awake (by simp))
  · exact h.same rfl

theorem fulfil_rested (h : AllRested c) {f : FutureId} {r : Except (Option χ) α}
    (hs : fulfil c f r = some c') : AllRested c' := by
  unfold fulfil at hs
  split at hs
  · cases hs
  · split at hs
    · cases hs
      exact h.same rfl
    · cases hs

theorem run_next_rested (h : AllRested c) {d : Nat} (hs : run_next c d = some c') :
    AllRested c' := by
  unfold run_next at hs
  split at hs
  · cases hs
    exact h.same rfl
  · refine pushResume_rested ?_ hs
    exact h.same rfl
  · cases hs

theorem step_rested (h : AllRested c) {e : Event α χ} (hs : step c e = some c') :
    AllRested c' := by
  unfold step at hs
  split at hs
  · cases hs
  · cases e with
    | worker q b =>
      dsimp only at hs
      split at hs
      · cases hs
      · exact workerStep_rested h hs
    | wake q =>
      dsimp only at hs
      split at hs
      · cases hs
      · rename_i tq hq
        cases hs
        exact h.setQueue (rested_notify_one tq)
    | await q f =>
      dsimp only at hs
      split at hs
      · cases hs
      · obtain ⟨r, -, h1⟩ := Option.bind_eq_some_iff.mp hs
        exact await_rested h h1
    | ret q v =>
      dsimp only at hs
      split at hs
      · cases hs
      · obtain ⟨r, -, rfl⟩ := Option.map_eq_some_iff.mp hs
        exact returned_rested h _ _ _
    | throw_ q x =>
      dsimp only at hs
      split at hs
      · cases hs
      · obtain ⟨r, -, rfl⟩ := Option.map_eq_some_iff.mp hs
        exact h.same rfl
    | push_back thread q policy =>
      dsimp only at hs
      split at hs
      · cases hs
      · rename_i tq hq
        cases hs
        apply AllRested.setQueue (h.same rfl)
        exact rested_push_back (h.at hq) _
    | push_back_and_forget q empty =>
      dsimp only at hs
      split at hs
      · cases hs
      · rename_i tq hq
        cases hs
        exact h.setQueue (rested_push_back (h.at hq) _)
    | join q =>
      dsimp only at hs
      split at hs
      · cases hs
      · rename_i tq hq
        cases hs
        exact h.setQueue (rested_join tq)
    | promise thread =>
      cases hs
      exact h.same rfl
    | then_ =>
      cases hs
      exact h.same rfl
    | unwrap f =>
      dsimp only at hs
      split at hs
      · cases hs
      · cases hs
        exact h.same rfl
    | add_continuation f =>
      dsimp only at hs
      split at hs
      · cases hs
      · obtain ⟨s, -, rfl⟩ := Option.map_eq_some_iff.mp hs
        exact h.same rfl
    | fulfil f r =>
      dsimp only at hs
      split at hs
      · cases hs
      · exact fulfil_rested h hs
    | run_next d => exact run_next_rested h hs

end

/-! ## The law -/

theorem splitStep_rested {s s' : Split α χ} {e : Event α χ} (h : AllRested s.config)
    (hs : splitStep s e = some s') : AllRested s'.config := by
  have hbase : ∀ {t}, baseStep s e = some t → AllRested t.config := by
    intro t ht
    unfold baseStep at ht
    obtain ⟨c, hc, rfl⟩ := Option.map_eq_some_iff.mp ht
    exact step_rested h hc
  unfold splitStep at hs
  cases e with
  | worker q b =>
    dsimp only at hs
    split at hs
    · exact hbase hs
    · rename_i tq i ctx hfin
      obtain ⟨hq, hw, -, -⟩ := finishing_cases hfin
      split at hs
      · cases hs
      · split at hs
        · cases hs
          exact h.completed (rested_notify_join (h.at hq)) i ctx
        · split at hs
          · cases hs
            exact h.setQueue (rested_count_down hw i)
          · cases hs
            exact h.completed (rested_count_down hw i) i ctx
  | _ => exact hbase hs

/-- However the steps interleave, a worker that is blocked on `cv_` with no notification on its
way has no item to take and no join to complete. -/
theorem no_wakeup_is_lost (n : Nat) (s : Split α χ)
    (h : Reach splitStep anyEvent ⟨init α χ n, []⟩ s) :
    ∀ (q : QueueId) (tq : TaskQueue α), s.config.queues[q]? = some tq → tq.worker = .asleep →
      tq.queue_ = [] ∧ ¬ (tq.join_ = true ∧ tq.in_progress_count_ = 0) := by
  have hall := h.invariant (P := fun s => AllRested s.config) (init_allRested n)
    (fun _ _ _ hr _ hs => splitStep_rested hr hs)
  intro q tq hq
  exact hall.at hq

/-- The worker sleeps before a task comes and after it has run. -/
theorem no_wakeup_is_lost_here :
    ∃ s : Split Nat Nat, ∃ tq, s.config.queues[0]? = some tq ∧ tq.worker = .asleep ∧
      tq.queue_ = [] ∧ ¬ (tq.join_ = true ∧ tq.in_progress_count_ = 0) := by
  have hrun : ∃ s, run splitStep ⟨init Nat Nat 1, []⟩
      [.worker 0 none, .push_back none 0 .resumable, .worker 0 none, .worker 0 none,
        .worker 0 none, .ret 0 7, .worker 0 none, .worker 0 none, .worker 0 none,
        .worker 0 none, .worker 0 none, .worker 0 none] = some s ∧
        s.config.queues[0]? = some { worker := .asleep, free_task_contexts_ := [0] } :=
    ⟨_, rfl, rfl⟩
  obtain ⟨s, hs, hq⟩ := hrun
  have hr := reach_anyEvent hs
  exact ⟨s, _, hq, rfl, no_wakeup_is_lost 1 s hr 0 _ hq rfl⟩

/-! ## The one step of task_complete -/

theorem finishing_of {c : Config α χ} {q : QueueId} {tq : TaskQueue α} {i : ContextId}
    {ctx : TaskContext α} (hq : c.queues[q]? = some tq) (hw : tq.worker = .fiber i)
    (hi : c.contexts[i]? = some ctx) (hp : ctx.pc = .finished_) :
    finishing c q = some (tq, i, ctx) := by
  unfold finishing
  simp [hq, hw, hi, hp]

theorem completed_setQueue (c : Config α χ) (q : QueueId) (tq tq' : TaskQueue α) (i : ContextId)
    (ctx : TaskContext α) :
    (c.setQueue q tq).completed q tq' i ctx = c.completed q tq' i ctx := by
  simp [Config.completed, Config.setQueue, Config.setContext, Config.note]

/-- Without the cut, the worker goes through `task_complete` at once. -/
theorem step_finishing {c : Config α χ} {q : QueueId} {tq : TaskQueue α} {i : ContextId}
    {ctx : TaskContext α} (h : finishing c q = some (tq, i, ctx)) (hx : c.fault.isSome = false)
    (b : Option χ) :
    step c (.worker q b) = some (c.completed q (tq.task_complete i) i ctx) := by
  obtain ⟨hq, hw, hi, hp⟩ := finishing_cases h
  unfold step workerStep fiberStep
  simp [hx, hq, hw, hi, hp, Config.completed]

/-- The one step of `task_complete` is the two steps with nobody in between, and every other step
is the same: each run of the queues is a run in which `task_complete` is cut in two. -/
theorem split_of_step {c c' : Config α χ} {e : Event α χ} (h : step c e = some c') :
    Reach splitStep anyEvent ⟨c, []⟩ ⟨c', []⟩ := by
  have hbase : baseStep ⟨c, []⟩ e = some ⟨c', []⟩ := by
    unfold baseStep
    rw [h]
    rfl
  have hone : splitStep ⟨c, []⟩ e = baseStep ⟨c, []⟩ e →
      Reach splitStep anyEvent ⟨c, []⟩ ⟨c', []⟩ :=
    fun he => (Reach.start _).next trivial (he.trans hbase)
  cases e with
  | worker q b =>
    cases hfin : finishing c q with
    | none =>
      refine hone ?_
      unfold splitStep
      simp [hfin]
    | some r =>
      obtain ⟨tq, i, ctx⟩ := r
      have hx : c.fault.isSome = false := by
        unfold step at h
        split at h
        · cases h
        · rename_i hx
          simpa using hx
      rw [step_finishing hfin hx] at h
      cases h
      obtain ⟨hq, hw, hi, hp⟩ := finishing_cases hfin
      rw [task_complete_eq]
      by_cases hz : (tq.count_down i).in_progress_count_ = 0
      · have h1 : splitStep ⟨c, []⟩ (.worker q b) =
            some ⟨c.setQueue q (tq.count_down i), [q]⟩ := by
          unfold splitStep
          simp [hfin, hx, hz]
        have hq' : (c.setQueue q (tq.count_down i)).queues[q]? = some (tq.count_down i) :=
          List.getElem?_set_self (List.getElem?_eq_some_iff.mp hq).1
        have hfin' := finishing_of (c := c.setQueue q (tq.count_down i)) hq' hw hi hp
        have h2 : splitStep ⟨c.setQueue q (tq.count_down i), [q]⟩ (.worker q b) =
            some ⟨c.completed q (tq.count_down i).notify_join i ctx, []⟩ := by
          have hx' : (c.setQueue q (tq.count_down i)).fault.isSome = false := hx
          unfold splitStep
          simp [hfin', hx', completed_setQueue]
        rw [if_pos hz]
        exact ((Reach.start _).next trivial h1).next trivial h2
      · refine (Reach.start _).next (e := .worker q b) trivial ?_
        unfold splitStep
        simp [hfin, hx, hz]
  | _ => exact hone rfl

theorem split_of_run {c c' : Config α χ} (h : Reach step anyEvent c c') :
    Reach splitStep anyEvent ⟨c, []⟩ ⟨c', []⟩ := by
  induction h with
  | refl => exact Reach.start _
  | tail _ hl ih =>
    obtain ⟨e, -, hs⟩ := hl
    exact Relation.ReflTransGen.trans ih (split_of_step hs)

end ltl.task_queue
