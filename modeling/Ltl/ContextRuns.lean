-- The task queues on contexts: each run of the workers that does not go wrong is
-- one of coroutines, so `resume` and `yield` carry it out on every back end.
import Ltl.Contexts
import Ltl.Scheduler

open runs slots

namespace ltl.task_queue

variable {α χ : Type}

/-! ## The stacks of the task queues -/

/-- What the main stack of a worker goes on with. On the stack of a context that is the top of the
loop, behind the call of `resume`. -/
def Worker.onMain : Worker α → Worker α
  | .fiber _ => .top
  | w => w

def stacksOf (queues : List (TaskQueue α)) (contexts : List (TaskContext α)) :
    coroutines.State (Worker α) (Pc α) where
  main q := match queues[q]? with
    | some tq => tq.worker.onMain
    | none => .top
  own i := (contexts[i]?).map (fun ctx => (ctx.task_queue_, ctx.pc))
  active q := (queues[q]?).bind (fun tq => tq.worker.onStack)

/-- The workers and their contexts, as threads with coroutines. -/
def stackState (c : Config α χ) : coroutines.State (Worker α) (Pc α) := stacksOf c.queues c.contexts

theorem onMain_of_none {w : Worker α} (h : w.onStack = none) : w.onMain = w := by
  cases w <;> first | rfl | cases h

theorem onMain_of_some {w : Worker α} {i : ContextId} (h : w.onStack = some i) :
    w.onMain = .top := by
  cases w <;> first | rfl | cases h

section
variable {queues : List (TaskQueue α)} {contexts : List (TaskContext α)} {q : QueueId}
  {tq tq' : TaskQueue α} {i : ContextId} {ctx ctx' : TaskContext α}

theorem active_eq (hq : queues[q]? = some tq) :
    (stacksOf queues contexts).active q = tq.worker.onStack := by
  simp [stacksOf, hq]

theorem own_eq (hi : contexts[i]? = some ctx) :
    (stacksOf queues contexts).own i = some (ctx.task_queue_, ctx.pc) := by
  simp [stacksOf, hi]

theorem own_new : (stacksOf queues contexts).own contexts.length = none := by
  simp [stacksOf]

theorem stacks_set_queue (hq : queues[q]? = some tq) :
    stacksOf (queues.set q tq') contexts = { stacksOf queues contexts with
      main := Function.update (stacksOf queues contexts).main q tq'.worker.onMain
      active := Function.update (stacksOf queues contexts).active q tq'.worker.onStack } := by
  have hlt := (List.getElem?_eq_some_iff.mp hq).1
  simp only [stacksOf, coroutines.State.mk.injEq, true_and]
  refine ⟨funext fun p => ?_, funext fun p => ?_⟩
  · by_cases hp : p = q
    · simp [hp, hlt]
    · simp [hp, List.getElem?_set_ne (Ne.symm hp)]
  · by_cases hp : p = q
    · simp [hp, hlt]
    · simp [hp, List.getElem?_set_ne (Ne.symm hp)]

theorem stacks_set_context (hi : contexts[i]? = some ctx) :
    stacksOf queues (contexts.set i ctx') = { stacksOf queues contexts with
      own := Function.update (stacksOf queues contexts).own i
        (some (ctx'.task_queue_, ctx'.pc)) } := by
  have hlt := (List.getElem?_eq_some_iff.mp hi).1
  simp only [stacksOf, coroutines.State.mk.injEq, true_and, and_true]
  funext j
  by_cases hj : j = i
  · simp [hj, hlt]
  · simp [hj, List.getElem?_set_ne (Ne.symm hj)]

theorem stacks_add_context :
    stacksOf queues (contexts ++ [ctx']) = { stacksOf queues contexts with
      own := Function.update (stacksOf queues contexts).own contexts.length
        (some (ctx'.task_queue_, ctx'.pc)) } := by
  simp only [stacksOf, coroutines.State.mk.injEq, true_and, and_true]
  funext j
  by_cases hj : j = contexts.length
  · simp [hj]
  · by_cases hlt : j < contexts.length
    · simp [hj, List.getElem?_append_left hlt]
    · have hgt : contexts.length < j := by omega
      have h₁ : contexts[j]? = none := List.getElem?_eq_none (by omega)
      have h₂ : (contexts ++ [ctx'])[j]? = none := by
        apply List.getElem?_eq_none
        simp only [List.length_append, List.length_singleton]
        omega
      simp [hj, h₁, h₂]

/-! ## What the stacks do in a step -/

abbrev Go (s s' : coroutines.State (Worker α) (Pc α)) : Prop :=
  Reach coroutines.step anyEvent s s'

theorem go {s s' : coroutines.State (Worker α) (Pc α)}
    {e : coroutines.Event (Worker α) (Pc α)} (h : coroutines.Steps s e s') : Go s s' :=
  (Reach.start s).next trivial h.step

/-- The worker goes on outside of every context, or something happens to its queue. -/
theorem main_goes_on (hq : queues[q]? = some tq) (hs : tq'.worker.onStack = tq.worker.onStack) :
    Go (stacksOf queues contexts) (stacksOf (queues.set q tq') contexts) := by
  rw [stacks_set_queue hq]
  have hactive : Function.update (stacksOf queues contexts).active q tq'.worker.onStack =
      (stacksOf queues contexts).active := by
    have hact : (stacksOf queues contexts).active q = tq.worker.onStack := active_eq hq
    rw [hs, ← hact, Function.update_eq_self]
  rw [hactive]
  cases hon : tq.worker.onStack with
  | none => exact go (.main ((active_eq hq).trans hon))
  | some i =>
    have hmain : (stacksOf queues contexts).main q = tq'.worker.onMain := by
      simp [stacksOf, hq, onMain_of_some hon, onMain_of_some (hs.trans hon)]
    rw [← hmain, Function.update_eq_self]
    exact Reach.start _

/-- The context that the worker is on goes on. -/
theorem own_goes_on (hq : queues[q]? = some tq) (hw : tq.worker = .fiber i)
    (hi : contexts[i]? = some ctx) (hown : ctx'.task_queue_ = q) :
    Go (stacksOf queues contexts) (stacksOf queues (contexts.set i ctx')) := by
  rw [stacks_set_context hi, hown]
  exact go (.own (by rw [active_eq hq, hw]; rfl))

/-- The worker leaves the context that it is on, which goes on as `ctx'` says later. -/
theorem context_yields (hq : queues[q]? = some tq) (hw : tq.worker = .fiber i)
    (hi : contexts[i]? = some ctx) (hown : ctx'.task_queue_ = q) (hw' : tq'.worker = .top) :
    Go (stacksOf queues contexts) (stacksOf (queues.set q tq') (contexts.set i ctx')) := by
  refine (own_goes_on hq hw hi hown).trans ?_
  rw [stacks_set_queue hq]
  have hmain : (stacksOf queues (contexts.set i ctx')).main q = tq'.worker.onMain := by
    simp [stacksOf, hq, hw, hw', Worker.onMain]
  rw [← hmain, Function.update_eq_self, hw']
  exact go (.yield (i := i) (by rw [active_eq hq, hw]; rfl))

/-- The worker resumes a context of its own, which goes on as `ctx'` says. -/
theorem context_resumes (hq : queues[q]? = some tq) (hon : tq.worker.onStack = none)
    (hi : contexts[i]? = some ctx) (hown : ctx.task_queue_ = q) (hown' : ctx'.task_queue_ = q)
    (hw' : tq'.worker = .fiber i) :
    Go (stacksOf queues contexts) (stacksOf (queues.set q tq') (contexts.set i ctx')) := by
  -- behind the call the main stack is at the top of the loop
  have htop : Go (stacksOf queues contexts)
      (stacksOf (queues.set q { tq with worker := .top }) contexts) :=
    main_goes_on hq (by rw [hon]; rfl)
  have hlt := (List.getElem?_eq_some_iff.mp hq).1
  have hq₁ : (queues.set q { tq with worker := .top })[q]? = some { tq with worker := .top } := by
    simp [hlt]
  have hresume : Go (stacksOf (queues.set q { tq with worker := .top }) contexts)
      (stacksOf (queues.set q tq') contexts) := by
    have hset : queues.set q tq' = (queues.set q { tq with worker := .top }).set q tq' := by
      simp
    rw [hset, stacks_set_queue hq₁]
    have hmain : (stacksOf (queues.set q { tq with worker := .top }) contexts).main q =
        tq'.worker.onMain := by
      simp [stacksOf, hlt, hw', Worker.onMain]
    rw [← hmain, Function.update_eq_self, hw']
    exact go (.resume (k := ctx.pc) (active_eq hq₁) (by rw [own_eq hi, hown]))
  have hq' : (queues.set q tq')[q]? = some tq' := by simp [hlt]
  exact (htop.trans hresume).trans (own_goes_on hq' hw' hi hown')

end

/-- A move of the task queues is a run of the coroutines. -/
theorem move_goes {c : Config α χ} {e : Event α χ} {ch : Change α χ} (hs : Sound c)
    (h : Move c e ch) : Go (stackState c) (stackState (ch.apply c)) := by
  cases h with
  | leave hq hw hj => exact main_goes_on hq (by rw [hw]; rfl)
  | sleep hq hw hj he => exact main_goes_on hq (by rw [hw]; rfl)
  | pick hq hw hj he => exact main_goes_on hq (by rw [hw]; rfl)
  | skip hq hw => exact main_goes_on hq (by rw [hw]; rfl)
  | plain hq hw => exact main_goes_on hq (by rw [hw]; rfl)
  | @start_new q b tq p hq hw hc hf =>
    have hadd : Go (stackState c) (stacksOf c.queues (c.contexts ++ [⟨q, p, .parked⟩])) := by
      rw [stacks_add_context]
      exact go (.create own_new)
    refine hadd.trans ?_
    have hi : (c.contexts ++ [(⟨q, p, .parked⟩ : TaskContext α)])[c.contexts.length]? =
        some ⟨q, p, .parked⟩ := List.getElem?_concat_length
    have hset : c.contexts ++ [(⟨q, p, .func_⟩ : TaskContext α)] =
        (c.contexts ++ [(⟨q, p, .parked⟩ : TaskContext α)]).set c.contexts.length
          ⟨q, p, .func_⟩ := (set_append_self c.contexts _ _).symm
    show Go _ (stacksOf (c.queues.set q { tq with
      in_progress_count_ := tq.in_progress_count_ + 1
      current := some c.contexts.length
      worker := .fiber c.contexts.length }) (c.contexts ++ [⟨q, p, .func_⟩]))
    rw [hset]
    exact context_resumes hq (by rw [hw]; rfl) hi rfl rfl rfl
  | start_free hq hw hc hf hi ho hp =>
    exact context_resumes hq (by rw [hw]; rfl) hi ho ho rfl
  | resume hq hw hc hi ho hp => exact context_resumes hq (by rw [hw]; rfl) hi ho ho rfl
  | plain_ended hq hw he => exact main_goes_on hq (by rw [hw]; rfl)
  | plain_stored hq hw hf hr => exact main_goes_on hq (by rw [hw]; rfl)
  | began hq hw hi hp => exact own_goes_on hq hw hi (hs.own hq hw hi).1
  | fiber_ended hq hw hi hp he => exact own_goes_on hq hw hi (hs.own hq hw hi).1
  | fiber_stored hq hw hi hp hfunc hf hr => exact own_goes_on hq hw hi (hs.own hq hw hi).1
  | registered hq hw hi hp hf hr => exact own_goes_on hq hw hi (hs.own hq hw hi).1
  | found_ready hq hw hi hp hf hr => exact own_goes_on hq hw hi (hs.own hq hw hi).1
  | @pushed q b tq i ctx f n s q' tq' hq hw hi hp hf ha hq' =>
    have hgo : Go (stackState c)
        (stacksOf c.queues (c.contexts.set i { ctx with pc := .yield f n })) :=
      own_goes_on hq hw hi (hs.own hq hw hi).1
    exact hgo.trans (main_goes_on hq' (Same.push_front _ _).stack)
  | yielded hq hw hi hp => exact context_yields hq hw hi (hs.own hq hw hi).1 rfl
  | got hq hw hi hp hf hr => exact own_goes_on hq hw hi (hs.own hq hw hi).1
  | @completed q b tq i ctx hq hw hi hp =>
    have hgo : Go (stackState c)
        (stacksOf c.queues (c.contexts.set i { ctx with pc := .last_yield })) :=
      own_goes_on hq hw hi (hs.own hq hw hi).1
    exact hgo.trans (main_goes_on hq (task_complete_same tq i).stack)
  | parked hq hw hi hp => exact context_yields hq hw hi (hs.own hq hw hi).1 rfl
  | await_ready => exact Reach.start _
  | await hq hw hi hp hf hr => exact own_goes_on hq hw hi (hs.own hq hw hi).1
  | ret_plain hq hw => exact main_goes_on hq (by rw [hw]; rfl)
  | ret_fiber hq hw hi hp => exact own_goes_on hq hw hi (hs.own hq hw hi).1
  | threw hq hr => exact Reach.start _
  | built hq hst => exact Reach.start _
  | wake hq => exact main_goes_on hq (Same.notify_one _).stack
  | push_back hq => exact main_goes_on hq (Same.push_back _ _).stack
  | forget hq hwi => exact main_goes_on hq (Same.push_back _ _).stack
  | join hq => exact main_goes_on hq (Same.joined _).stack
  | made he => exact Reach.start _
  | other hf hr => exact Reach.start _
  | fulfilled hw hf hr hs' => exact Reach.start _
  | run_other hd => exact Reach.start _
  | run_push hd hf ha hq => exact main_goes_on hq (Same.push_front _ _).stack

/-! ## Runs -/

/-- A step after which no fault is noted is a move. -/
theorem move_of_no_fault {c c' : Config α χ} {e : Event α χ} (hs : Sound c) (hd : Held c)
    (h : step c e = some c') (hf : c'.fault = none) : ∃ ch, Move c e ch ∧ c' = ch.apply c := by
  obtain ⟨-, hm | hw⟩ := step_does h
  · exact hm
  · exfalso
    cases astray_of_wrong hs hd hw with
    | resume_other hq hw hbad hfault he =>
      rw [he] at hf
      cases hf
    | fiber_null hq hw hi hp hfut ha he =>
      rw [he] at hf
      cases hf
    | setter_null hd hfut ha he =>
      rw [he] at hf
      cases hf

theorem fault_before {c c' : Config α χ} {e : Event α χ} (h : step c e = some c') :
    c.fault = none := by
  unfold step at h
  split at h
  · cases h
  · rename_i hf
    exact Option.not_isSome_iff_eq_none.mp hf

theorem init_stacks (n : Nat) :
    stackState (init α χ n) = coroutines.start (fun _ => (.top : Worker α)) := by
  simp only [stackState, stacksOf, init, coroutines.start, coroutines.State.mk.injEq]
  refine ⟨funext fun q => ?_, funext fun i => ?_, funext fun q => ?_⟩
  · by_cases hq : q < n
    · simp [hq, Worker.onMain]
    · simp [hq]
  · simp
  · by_cases hq : q < n
    · simp [hq, Worker.onStack]
    · simp [hq]

theorem reach_goes {n : Nat} {c : Config α χ} (h : Reach step anyEvent (init α χ n) c)
    (hf : c.fault = none) :
    Sound c ∧ Held c ∧ Go (coroutines.start fun _ => (.top : Worker α)) (stackState c) := by
  revert hf
  refine h.invariant (P := fun t => t.fault = none → Sound t ∧ Held t ∧
    Go (coroutines.start fun _ => (.top : Worker α)) (stackState t)) ?_ ?_
  · intro _
    refine ⟨init_sound n, init_held n, ?_⟩
    rw [init_stacks]
    exact Reach.start _
  · intro t e t' ih _ hs hf
    obtain ⟨hsound, hheld, hgo⟩ := ih (fault_before hs)
    obtain ⟨ch, hm, rfl⟩ := move_of_no_fault hsound hheld hs hf
    exact ⟨move_sound hsound hm, move_held hheld hm, hgo.trans (move_goes hsound hm)⟩

/-- The machine is where the task queues are: each thread on the stack that its worker is on, and
each other stack saved for the jump that goes on with it. -/
structure Carries (c : Config α χ) (m : context.Machine (Worker α) (Pc α)) : Prop where
  current : ∀ q tq, c.queues[q]? = some tq → m.current q = tq.current
  on_main : ∀ q tq, c.queues[q]? = some tq → tq.worker.onStack = none →
    m.regs q = .main q tq.worker
  on_own : ∀ q tq i ctx, c.queues[q]? = some tq → tq.worker = .fiber i →
    c.contexts[i]? = some ctx → m.regs q = .own i ctx.pc ∧ m.saved (.main q) = some (.main q .top)
  off_stack : ∀ i ctx, c.contexts[i]? = some ctx → m.main_ i = some ctx.task_queue_ ∧
    (ctx.pc.runs = false → m.saved (.own i) = some (.own i ctx.pc))

theorem carries_of_holds {c : Config α χ} {m : context.Machine (Worker α) (Pc α)} (hs : Sound c)
    (h : context.Holds (stackState c) m) : Carries c m := by
  refine ⟨?_, ?_, ?_, ?_⟩
  · intro q tq hq
    rw [h.current, (hs.queue q tq hq).current_eq]
    exact active_eq hq
  · intro q tq hq hon
    have hmain : (stackState c).main q = tq.worker := by
      simp [stackState, stacksOf, hq, onMain_of_none hon]
    rw [h.on_main ((active_eq hq).trans hon), hmain]
  · intro q tq i ctx hq hw hi
    have hactive : (stackState c).active q = some i := (active_eq hq).trans (by rw [hw]; rfl)
    have hmain : (stackState c).main q = .top := by
      simp [stackState, stacksOf, hq, hw, Worker.onMain]
    obtain ⟨k, hk, hregs⟩ := h.on_own hactive
    have hown : (stackState c).own i = some (ctx.task_queue_, ctx.pc) := own_eq hi
    rw [hown] at hk
    cases hk
    refine ⟨hregs, ?_⟩
    rw [h.mains _ i hactive, hmain]
  · intro i ctx hi
    have hown : (stackState c).own i = some (ctx.task_queue_, ctx.pc) := own_eq hi
    refine ⟨by rw [h.made, hown]; rfl, ?_⟩
    intro hruns
    refine h.owns i _ _ hown ?_
    intro hactive
    -- the worker would be on the stack of a context that does not run
    obtain ⟨tq, hq, hon⟩ := Option.bind_eq_some_iff.mp hactive
    obtain ⟨ctx', hi', -, hr⟩ := (hs.queue _ tq hq).on_stack i hon
    rw [hi] at hi'
    cases hi'
    rw [hruns] at hr
    cases hr

/-- Every run of the task queues in which nothing goes wrong is carried out by `resume` and `yield`
on the contexts of each back end, when the primitives do what their documentation says. -/
theorem queues_run_on_contexts (p : context.Primitives (Worker α) (Pc α)) (hp : p.Documented)
    (b : context.BackEnd) (n : Nat) (c : Config α χ) (h : Reach step anyEvent (init α χ n) c)
    (hf : c.fault = none) :
    ∃ es m, runOk (context.step p b) context.OwnThread (context.start p b fun _ => .top) es =
      some m ∧ Carries c m := by
  obtain ⟨hs, -, hgo⟩ := reach_goes h hf
  obtain ⟨es, hes⟩ := run_of_reach hgo
  obtain ⟨es', m, -, hm, hh⟩ := (context.start_holds p b fun _ => .top).run hp b es hes
  exact ⟨es', m, hm, carries_of_holds hs hh⟩

/-- A task that awaits, and is resumed. -/
theorem queues_run_on_contexts_here :
    ∃ (es : List (context.Event (Worker Unit) (Pc Unit))) (m : context.Machine _ _),
      runOk (context.step (context.plain _ _) .fibers) context.OwnThread
        (context.start (context.plain _ _) .fibers fun _ => .top) es = some m ∧
      m.regs 0 = .own 0 (.get 1) ∧ m.saved (.main 0) = some (.main 0 .top) := by
  have hrun : ∃ c tq ctx, run step (init Unit Unit 1)
      [.push_back none 0 .resumable, .worker 0 none, .worker 0 none, .worker 0 none,
        .promise (some 0), .await 0 1, .worker 0 none, .worker 0 none, .fulfil 1 (.ok ()),
        .run_next 0, .worker 0 none, .worker 0 none] = some c ∧ c.fault = none ∧
      c.queues[0]? = some tq ∧ tq.worker = .fiber 0 ∧ c.contexts[0]? = some ctx ∧
      ctx.pc = .get 1 := ⟨_, _, _, rfl, rfl, rfl, rfl, rfl, rfl⟩
  obtain ⟨c, tq, ctx, hrun, hf, hq, hw, hi, hp⟩ := hrun
  obtain ⟨es, m, hm, hc⟩ := queues_run_on_contexts _ context.plain_documented .fibers 1 c
    (reach_anyEvent hrun) hf
  obtain ⟨hregs, hsaved⟩ := hc.on_own 0 tq 0 ctx hq hw hi
  exact ⟨es, m, hm, by rw [hregs, hp], hsaved⟩

end ltl.task_queue
