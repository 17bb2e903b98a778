-- Queues that are left alone: as long as nobody makes a new call, the workers
-- come to rest, and then every task has finished or awaits a future that is
-- not ready.
import Ltl.Stranded
import Ltl.Wakeup

open ltl.future_state slots counts runs

namespace ltl.task_queue

variable {α χ : Type}

/-- Nobody makes a new call: the workers go on, functions of the client return, the loops of setters
go on. No worker wakes up by itself, and no function and no constructor of a stored value throws. -/
def Settling (_ : Config α χ) : Event α χ → Prop
  | .worker _ none => True
  | .ret _ _ => True
  | .run_next _ => True
  | _ => False

instance (c : Config α χ) (e : Event α χ) : Decidable (Settling c e) :=
  match e with
  | .worker _ none | .ret _ _ | .run_next _ => isTrue trivial
  | .worker _ (some _) | .wake _ | .await _ _ | .throw_ _ _ | .push_back _ _ _
  | .push_back_and_forget _ _ | .join _ | .promise _ | .then_ | .unwrap _
  | .add_continuation _ | .fulfil _ _ => isFalse id

/-! ## The work that is left -/

def WorkItem.cost : WorkItem → Nat
  | .empty => 2
  | .task _ _ => 9
  | .resume_task _ _ => 2

/-- A continuation of an await costs its item and a notification of the worker. -/
def Cont.cost : Cont → Nat
  | .push_front _ _ => 4
  | .other => 1

def Stage.cost : Stage α → Nat
  | .task_ => 4
  | .set_value _ => 3
  | .drain _ => 2

def Pc.cost : Pc α → Nat
  | .parked => 0
  | .last_yield => 1
  | .finished_ => 3
  | .wrapped s => s.cost + 2
  | .func_ => 7
  | .get _ => 7
  | .suspended _ _ => 7
  | .yield _ _ => 8
  | .push_front _ _ => 12
  | .continue_with _ => 13

def Worker.cost : Worker α → Nat
  | .asleep => 0
  | .left => 0
  | .top => 1
  | .fiber _ => 1
  | .picked wi => wi.cost
  | .plain _ s => s.cost

def TaskQueue.cost (tq : TaskQueue α) : Nat := total WorkItem.cost tq.queue_ + tq.worker.cost

def contextCost (ctx : TaskContext α) : Nat := ctx.pc.cost

def futureCost (s : Future α χ) : Nat := total Cont.cost s.continuations_

def setterCost (d : FutureId × List Cont) : Nat := total Cont.cost d.2

/-- A bound on the steps to come. -/
def cost (c : Config α χ) : Nat :=
  total TaskQueue.cost c.queues + total contextCost c.contexts + total futureCost c.futures +
    total setterCost c.setters

def Change.goneCost (ch : Change α χ) : Nat :=
  ch.queues.gone TaskQueue.cost + ch.contexts.gone contextCost + ch.futures.gone futureCost +
    ch.setters.gone setterCost

def Change.comeCost (ch : Change α χ) : Nat :=
  ch.queues.come TaskQueue.cost + ch.contexts.come contextCost + ch.futures.come futureCost +
    ch.setters.come setterCost

theorem cost_apply {ch : Change α χ} {c : Config α χ} (hf : ch.Fits c) :
    cost (ch.apply c) + ch.goneCost = cost c + ch.comeCost := by
  have hq := Slot.total_apply TaskQueue.cost hf.queues
  have hi := Slot.total_apply contextCost hf.contexts
  have hs := Slot.total_apply futureCost hf.futures
  have hd := Slot.total_apply setterCost hf.setters
  unfold cost Change.goneCost Change.comeCost Change.apply
  dsimp only
  omega

theorem cost_notify_one (tq : TaskQueue α) : tq.notify_one.cost ≤ tq.cost + 1 := by
  unfold TaskQueue.notify_one
  split
  · rename_i hw
    simp [TaskQueue.cost, hw, Worker.cost]
  · exact Nat.le_succ _

theorem cost_push_front (tq : TaskQueue α) (wi : WorkItem) :
    (tq.push_front wi).cost ≤ tq.cost + wi.cost + 1 := by
  have h : TaskQueue.cost { tq with queue_ := wi :: tq.queue_ } = tq.cost + wi.cost := by
    simp only [TaskQueue.cost, total_cons]
    omega
  have hn := cost_notify_one { tq with queue_ := wi :: tq.queue_ }
  unfold TaskQueue.push_front
  dsimp only
  split <;> omega

theorem cost_task_complete (tq : TaskQueue α) (i : ContextId) :
    (tq.task_complete i).cost ≤ tq.cost + 1 := by
  unfold TaskQueue.task_complete
  dsimp only
  split
  · exact cost_notify_one _
  · exact Nat.le_succ _

theorem ended_cost {c : Config α χ} {p : Option FutureId} {s : Stage α} (h : Ended c p s) :
    2 ≤ s.cost := by
  cases h <;> simp [Stage.cost]

/-- Every step of this kind takes away more than it brings. -/
theorem move_cost {c : Config α χ} {e : Event α χ} {ch : Change α χ} (h : Move c e ch)
    (hs : Settling c e) : ch.comeCost < ch.goneCost := by
  cases h <;> simp only [Change.comeCost, Change.goneCost, Slot.come, Slot.gone, Nat.add_zero,
    Nat.zero_add]
  case leave hq hw hj => simp [TaskQueue.cost, hw, Worker.cost]
  case sleep hq hw hj he => simp [TaskQueue.cost, hw, Worker.cost]
  case pick hq hw hj he =>
    simp only [TaskQueue.cost, hw, he, Worker.cost, total_cons]
    omega
  case skip hq hw => simp [TaskQueue.cost, hw, Worker.cost, WorkItem.cost]
  case plain hq hw => simp [TaskQueue.cost, hw, Worker.cost, WorkItem.cost, Stage.cost]
  case start_new hq hw hc hf =>
    simp only [TaskQueue.cost, hw, contextCost, Worker.cost, WorkItem.cost, Pc.cost]
    omega
  case start_free hq hw hc hf hi hown hp =>
    simp only [TaskQueue.cost, hw, contextCost, hp, Worker.cost, WorkItem.cost, Pc.cost]
    omega
  case resume hq hw hc hi hown hp =>
    simp only [TaskQueue.cost, hw, contextCost, hp, Worker.cost, WorkItem.cost, Pc.cost]
    omega
  case plain_ended hq hw he =>
    have hle := ended_cost he
    simp only [TaskQueue.cost, hw, Worker.cost]
    omega
  case plain_stored hq hw hf hr =>
    simp only [TaskQueue.cost, hw, Worker.cost, Stage.cost, futureCost, setterCost, total_nil]
    omega
  case began hq hw hi hp => simp [contextCost, hp, Pc.cost, Stage.cost]
  case fiber_ended hq hw hi hp he =>
    have hle := ended_cost he
    simp only [contextCost, hp, Pc.cost]
    omega
  case fiber_stored hq hw hi hp hfunc hf hr =>
    simp only [contextCost, hp, Pc.cost, Stage.cost, futureCost, setterCost, total_nil]
    omega
  case registered hq hw hi hp hf hr =>
    simp only [contextCost, hp, Pc.cost, futureCost, total_append, total_cons, total_nil,
      Cont.cost]
    omega
  case found_ready hq hw hi hp hf hr => simp [contextCost, hp, Pc.cost]
  case pushed i ctx f n s q' tq' hq hw hi hp hf ha hq' =>
    have hle := cost_push_front tq' (.resume_task i n)
    simp only [contextCost, hp, Pc.cost, WorkItem.cost] at hle ⊢
    omega
  case yielded hq hw hi hp =>
    simp only [TaskQueue.cost, hw, contextCost, hp, Worker.cost, Pc.cost]
    omega
  case got hq hw hi hp hf hr => simp [contextCost, hp, Pc.cost, Stage.cost]
  case completed q b tq i ctx hq hw hi hp =>
    have hle := cost_task_complete tq i
    simp only [contextCost, hp, Pc.cost]
    omega
  case parked hq hw hi hp =>
    simp only [TaskQueue.cost, hw, contextCost, hp, Worker.cost, Pc.cost]
    omega
  case ret_plain hq hw => simp [TaskQueue.cost, hw, Worker.cost, Stage.cost]
  case ret_fiber hq hw hi hp => simp [contextCost, hp, Pc.cost, Stage.cost]
  case run_other hd => simp [setterCost, Cont.cost]
  case run_push d f i n cs s q tq hd hf ha hq =>
    have hle := cost_push_front tq (.resume_task i n)
    simp only [setterCost, total_cons, Cont.cost, WorkItem.cost] at hle ⊢
    omega
  case made he =>
    rcases he with ⟨t, rfl⟩ | rfl | ⟨f, rfl⟩ <;> exact absurd hs id
  all_goals exact absurd hs id

/-! ## What a context and a loop refer to -/

/-- Each context belongs to a queue that exists, and each `operator()` in the loop of a setter to
a loop that exists. -/
structure Housed (c : Config α χ) : Prop where
  home : ∀ ctx ∈ c.contexts, ctx.task_queue_ < c.queues.length
  plain : ∀ tq ∈ c.queues, ∀ p d, tq.worker = .plain p (.drain d) → d < c.setters.length
  fiber : ∀ ctx ∈ c.contexts, ∀ d, ctx.pc = .wrapped (.drain d) → d < c.setters.length

theorem init_housed (n : Nat) : Housed (init α χ n) := by
  refine ⟨by simp [init], ?_, by simp [init]⟩
  intro tq htq p d hw
  rw [List.eq_of_mem_replicate htq] at hw
  cases hw

theorem plain_of_notify_one {tq : TaskQueue α} {p : Option FutureId} {s : Stage α}
    (h : tq.notify_one.worker = .plain p s) : tq.worker = .plain p s := by
  unfold TaskQueue.notify_one at h
  split at h
  · cases h
  · exact h

theorem plain_of_push_back {tq : TaskQueue α} {wi : WorkItem} {p : Option FutureId} {s : Stage α}
    (h : (tq.push_back wi).worker = .plain p s) : tq.worker = .plain p s := by
  unfold TaskQueue.push_back at h
  dsimp only at h
  split at h
  · have hw := plain_of_notify_one h
    exact hw
  · exact h

theorem plain_of_push_front {tq : TaskQueue α} {wi : WorkItem} {p : Option FutureId}
    {s : Stage α} (h : (tq.push_front wi).worker = .plain p s) : tq.worker = .plain p s := by
  unfold TaskQueue.push_front at h
  dsimp only at h
  split at h
  · have hw := plain_of_notify_one h
    exact hw
  · exact h

section
variable {c : Config α χ} {e : Event α χ} {ch : Change α χ}

theorem housed_home (hc : Housed c) (h : Move c e ch) :
    ∀ ctx ∈ (ch.apply c).contexts, ctx.task_queue_ < (ch.apply c).queues.length := by
  intro ctx hctx
  have hlen : c.queues.length ≤ (ch.apply c).queues.length := Slot.length_le ch.queues c.queues
  apply Nat.lt_of_lt_of_le _ hlen
  rcases Slot.mem_apply hctx with hold | ⟨i, old, hset⟩ | hadd
  · exact hc.home ctx hold
  · have hi : c.contexts[i]? = some old := by
      have hf := h.fits.contexts
      rwa [hset] at hf
    have hsame : ctx.task_queue_ = old.task_queue_ := by
      cases h <;> cases hset <;> rfl
    rw [hsame]
    exact hc.home old (List.mem_of_getElem? hi)
  · cases h with
    | start_new hq hw hcur hf =>
      cases hadd
      exact (List.getElem?_eq_some_iff.mp hq).1
    | _ => cases hadd

theorem housed_plain (hc : Housed c) (h : Move c e ch) :
    ∀ tq ∈ (ch.apply c).queues, ∀ p d, tq.worker = .plain p (.drain d) →
      d < (ch.apply c).setters.length := by
  intro tq htq p d hw
  have hlen : c.setters.length ≤ (ch.apply c).setters.length := Slot.length_le ch.setters c.setters
  rcases Slot.mem_apply htq with hold | ⟨i, old, hset⟩ | hadd
  · exact Nat.lt_of_lt_of_le (hc.plain tq hold p d hw) hlen
  · have hi : c.queues[i]? = some old := by
      have hf := h.fits.queues
      rwa [hset] at hf
    have hback : old.worker = .plain p (.drain d) → d < (ch.apply c).setters.length :=
      fun ho => Nat.lt_of_lt_of_le (hc.plain old (List.mem_of_getElem? hi) p d ho) hlen
    cases h with
    | plain_stored hq hw' hf hr =>
      cases hset
      cases hw
      simp [Change.apply]
    | pushed hq hw' hi' hp hf ha hq' =>
      cases hset
      exact hback (plain_of_push_front hw)
    | run_push hd hf ha hq =>
      cases hset
      exact hback (plain_of_push_front hw)
    | push_back hq =>
      cases hset
      exact hback (plain_of_push_back hw)
    | forget hq hwi =>
      cases hset
      exact hback (plain_of_push_back hw)
    | wake hq =>
      cases hset
      exact hback (plain_of_notify_one hw)
    | join hq =>
      cases hset
      have ho := plain_of_notify_one hw
      exact hback ho
    | completed hq hw' hi' hp =>
      cases hset
      unfold TaskQueue.task_complete at hw
      dsimp only at hw
      split at hw
      · have ho := plain_of_notify_one hw
        exact hback ho
      · exact hback hw
    | _ => cases hset <;> cases hw
  · cases h <;> cases hadd

theorem housed_fiber (hc : Housed c) (h : Move c e ch) :
    ∀ ctx ∈ (ch.apply c).contexts, ∀ d, ctx.pc = .wrapped (.drain d) →
      d < (ch.apply c).setters.length := by
  intro ctx hctx d hp
  have hlen : c.setters.length ≤ (ch.apply c).setters.length := Slot.length_le ch.setters c.setters
  rcases Slot.mem_apply hctx with hold | ⟨i, old, hset⟩ | hadd
  · exact Nat.lt_of_lt_of_le (hc.fiber ctx hold d hp) hlen
  · cases h with
    | fiber_stored hq hw hi hp' hfunc hf hr =>
      cases hset
      cases hp
      simp [Change.apply]
    | _ => cases hset <;> cases hp
  · cases h with
    | start_new hq hw hcur hf =>
      cases hadd
      cases hp
    | _ => cases hadd

theorem move_housed (hc : Housed c) (h : Move c e ch) : Housed (ch.apply c) :=
  ⟨housed_home hc h, housed_plain hc h, housed_fiber hc h⟩

end

/-! ## Who can go on -/

/-- Some step is possible without a new call. -/
def CanSettle (c : Config α χ) : Prop := ∃ e, Settling c e ∧ step c e ≠ none

section
variable {c : Config α χ} {q : QueueId} {tq : TaskQueue α}

theorem can_settle_of_worker {c' : Config α χ} (hf : c.fault = none)
    (hq : c.queues[q]? = some tq) (h : workerStep c q tq none = some c') : CanSettle c :=
  ⟨.worker q none, trivial, by simp [step, hf, hq, h]⟩

/-- A function of the client returns. -/
theorem can_settle_of_running [Inhabited α] {r} (hf : c.fault = none)
    (hq : c.queues[q]? = some tq) (h : running c tq = some r) : CanSettle c :=
  ⟨.ret q default, trivial, by simp [step, hf, hq, h]⟩

/-- The queue on which the item of an await is pushed. -/
theorem await_queue_exists (hg : Good c) (hh : Housed c) {f : FutureId} {i : ContextId}
    {n : AwaitId} (h : .awaited n i f ∈ c.log) :
    ∃ s q tq, c.futures[f]? = some s ∧ s.await_queue_ = some q ∧ c.queues[q]? = some tq := by
  obtain ⟨q, ⟨ctx, hi, hown⟩, s, hs, ha⟩ := hg.linked.affine n i f h
  have hlt : q < c.queues.length := hown ▸ hh.home ctx (List.mem_of_getElem? hi)
  exact ⟨s, q, _, hs, ha, List.getElem?_eq_getElem hlt⟩

/-- A loop that is not at its end goes on. -/
theorem can_settle_of_loop (hg : Good c) (hh : Housed c) (hf : c.fault = none) {d : Nat}
    {f : FutureId} {k : Cont} {cs : List Cont} (hd : c.setters[d]? = some (f, k :: cs)) :
    CanSettle c := by
  cases k with
  | other => exact ⟨.run_next d, trivial, by simp [step, hf, run_next, hd]⟩
  | push_front i n =>
    obtain ⟨s, q, tq, hs, ha, hq⟩ := await_queue_exists hg hh (hg.linked.of_pushes (.setter hd))
    exact ⟨.run_next d, trivial, by simp [step, hf, run_next, hd, pushResume, hs, ha, hq]⟩

/-- `operator()` goes on after its function has returned, or the loop goes on that it is in. -/
theorem wrapped_goes_on (hg : Good c) (hh : Housed c) (hf : c.fault = none) {p : Option FutureId}
    {s : Stage α} (hs : s ≠ .task_)
    (hfut : ∀ f v, p = some f → s = .set_value v → ∃ t, c.futures[f]? = some t)
    (hloop : ∀ d, s = .drain d → d < c.setters.length) :
    CanSettle c ∨ ∃ r, wrapped_function c p s none = some r := by
  cases s with
  | task_ => exact absurd rfl hs
  | set_value v =>
    refine Or.inr ?_
    cases p with
    | none => simp [wrapped_function]
    | some f =>
      obtain ⟨t, ht⟩ := hfut f v rfl rfl
      simp only [wrapped_function, ht]
      split <;> simp
  | drain d =>
    have hlt := hloop d rfl
    have hd : c.setters[d]? = some c.setters[d] := List.getElem?_eq_getElem hlt
    generalize c.setters[d] = x at hd
    obtain ⟨f, cs⟩ := x
    cases cs with
    | nil =>
      refine Or.inr ?_
      simp [wrapped_function, hd]
    | cons k cs => exact Or.inl (can_settle_of_loop hg hh hf hd)

theorem stores_future (hg : Good c) (hq : c.queues[q]? = some tq) {f : FutureId}
    (h : Stores c q tq (some f)) : ∃ t, c.futures[f]? = some t := by
  have hpos := holding_of_stores hq h
  have hlt := hg.held.wrapped_lt f (hg.held.wrapped f hpos)
  exact ⟨_, List.getElem?_eq_getElem hlt⟩

/-- A worker on the stack of a context goes on. -/
theorem can_settle_of_fiber [Inhabited α] (hg : Good c) (hp : Prompt c) (hh : Housed c)
    (hf : c.fault = none) (hq : c.queues[q]? = some tq) {i : ContextId}
    (hw : tq.worker = .fiber i) : CanSettle c := by
  obtain ⟨ctx, hi, hown, hruns⟩ := (hg.sound.queue q tq hq).on_stack i (by rw [hw]; rfl)
  have hstep : ∀ {c'}, fiberStep c q tq i ctx none = some c' → CanSettle c := by
    intro c' h
    apply can_settle_of_worker hf hq
    simpa [workerStep, hw, hi] using h
  have hlinked := hg.linked
  cases hpc : ctx.pc with
  | parked => simp [hpc, Pc.runs] at hruns
  | suspended f n => simp [hpc, Pc.runs] at hruns
  | func_ =>
    apply hstep
    simp only [fiberStep, hpc]
    rfl
  | wrapped s =>
    by_cases hs : s = .task_
    · subst hs
      apply can_settle_of_running hf hq
      simp only [running, hw, hi, hpc]
      rfl
    · have hfut : ∀ f v, ctx.func_ = some f → s = .set_value v → ∃ t, c.futures[f]? = some t := by
        rintro f v hfunc rfl
        apply stores_future hg hq
        rw [← hfunc]
        exact .fiber hw hi hpc
      have hloop : ∀ d, s = .drain d → d < c.setters.length := by
        rintro d rfl
        exact hh.fiber ctx (List.mem_of_getElem? hi) d hpc
      rcases wrapped_goes_on hg hh hf hs hfut hloop with h | ⟨⟨c', r⟩, h⟩
      · exact h
      · cases r <;> exact hstep (by simp only [fiberStep, hpc, h]; rfl)
  | continue_with f =>
    obtain ⟨q', -, s, hs, -⟩ := hlinked.going i ctx f hi hpc
    have hsome : ∃ c', fiberStep c q tq i ctx none = some c' := by
      simp only [fiberStep, hpc, hs]
      split <;> simp
    obtain ⟨c', h⟩ := hsome
    exact hstep h
  | push_front f n =>
    obtain ⟨s, q', tq', hs, ha, hq'⟩ :=
      await_queue_exists hg hh (hlinked.of_pushes (.itself hi hpc))
    apply hstep
    simp only [fiberStep, hpc, pushResume, hs, ha, hq', Option.map_some]
    rfl
  | yield f n =>
    apply hstep
    simp only [fiberStep, hpc]
    rfl
  | get f =>
    obtain ⟨s, hs, hr⟩ := hp.got i ctx f hi hpc
    apply hstep
    simp only [fiberStep, hpc, hs, hr, if_true]
    rfl
  | finished_ =>
    apply hstep
    simp only [fiberStep, hpc]
    rfl
  | last_yield =>
    apply hstep
    simp only [fiberStep, hpc]
    rfl

/-- A worker that neither sleeps nor has left goes on. -/
theorem can_settle_of_busy [Inhabited α] (hg : Good c) (hp : Prompt c) (hh : Housed c)
    (hf : c.fault = none) (hq : c.queues[q]? = some tq) (hs : tq.worker ≠ .asleep)
    (hl : tq.worker ≠ .left) : CanSettle c := by
  have hstep : ∀ {c'}, workerStep c q tq none = some c' → CanSettle c :=
    fun h => can_settle_of_worker hf hq h
  cases hw : tq.worker with
  | asleep => exact absurd hw hs
  | left => exact absurd hw hl
  | top =>
    apply hstep
    simp only [workerStep, hw]
    rfl
  | picked wi =>
    cases wi with
    | empty =>
      apply hstep
      simp only [workerStep, hw]
      rfl
    | resume_task i n =>
      apply hstep
      simp only [workerStep, hw]
      rfl
    | task p policy =>
      cases policy with
      | non_resumable =>
        apply hstep
        simp only [workerStep, hw]
        rfl
      | resumable =>
        have hsome : ∃ c', run_in_new_context c q tq p = some c' := by
          have hcur := current_of_picked hg.sound hq hw
          cases hlast : tq.free_task_contexts_.getLast? with
          | none => simp [run_in_new_context, hcur, hlast]
          | some i =>
            obtain ⟨ctx, hi, -⟩ := ((hg.sound.queue q tq hq).free_iff hl i).mp
              (List.mem_of_getLast? hlast)
            simp [run_in_new_context, hcur, hlast, hi]
        obtain ⟨c', h⟩ := hsome
        apply hstep
        simp only [workerStep, hw, h]
        rfl
  | plain p s =>
    by_cases ht : s = .task_
    · subst ht
      apply can_settle_of_running hf hq
      simp only [running, hw]
      rfl
    · have hfut : ∀ f v, p = some f → s = .set_value v → ∃ t, c.futures[f]? = some t := by
        rintro f v rfl rfl
        exact stores_future hg hq (.plain hw)
      have hloop : ∀ d, s = .drain d → d < c.setters.length := by
        rintro d rfl
        exact hh.plain tq (List.mem_of_getElem? hq) p d hw
      rcases wrapped_goes_on hg hh hf ht hfut hloop with h | ⟨⟨c', r⟩, h⟩
      · exact h
      · cases r <;> exact hstep (by simp only [workerStep, hw, h]; rfl)
  | fiber i => exact can_settle_of_fiber hg hp hh hf hq hw

end

/-! ## At rest -/

/-- Nothing is left to do without a new call: each worker has left or sleeps with an empty queue,
and each task that has not finished awaits a future that is not ready. -/
structure AtRest (c : Config α χ) : Prop where
  workers : ∀ (q : QueueId) tq, c.queues[q]? = some tq → tq.worker = .left ∨
    (tq.worker = .asleep ∧ tq.queue_ = [] ∧ (tq.join_ = true → 0 < tq.in_progress_count_))
  tasks : ∀ (i : ContextId) ctx, c.contexts[i]? = some ctx → ctx.pc = .parked ∨
    ∃ f n s, ctx.pc = .suspended f n ∧ c.futures[f]? = some s ∧ ready s = false ∧
      .push_front i n ∈ s.continuations_
  loops : ∀ (d : Nat) f cs, c.setters[d]? = some (f, cs) → cs = []

/-- What is known of every configuration from which the queues are left alone. -/
structure Calm (c : Config α χ) : Prop where
  good : Good c
  prompt : Prompt c
  drained : Drained c
  kept : Kept c
  housed : Housed c
  rested : AllRested c
  fault : c.fault = none

section
variable {c : Config α χ}

theorem reach_housed {n : Nat} (h : Reach step OwnQueue (init α χ n) c) : Housed c := by
  refine h.invariant_on (fun _ hr => reach_good hr) (init_housed n) ?_
  intro c e c' hg hh _ hs
  obtain ⟨ch, hm, rfl⟩ := step_move hg hs
  exact move_housed hh hm

theorem reach_calm {n : Nat} (h : Reach step Patient (init α χ n) c) (hf : c.fault = none) :
    Calm c := by
  have hp := reach_proper h
  have ho := reach_own hp
  have hr : AllRested c := h.invariant (init_allRested n) fun _ _ _ hr _ hs => step_rested hr hs
  exact ⟨reach_good ho, reach_prompt hp, reach_drained ho, reach_kept h, reach_housed ho, hr, hf⟩

/-- Every step that settles is a patient one, and takes away some of the work that is left. -/
theorem step_calm {e : Event α χ} {c' : Config α χ} (hc : Calm c) (hs : Settling c e)
    (h : step c e = some c') : Calm c' ∧ cost c' < cost c := by
  have hn : NonNull c e := by
    cases e <;> trivial
  have ho : OwnQueue c e := by
    cases e <;> trivial
  have hj : KeepsResumes c e := by
    cases e <;> trivial
  have hg := step_good hc.good ho h
  have hr := step_rested hc.rested h
  obtain ⟨ch, hm, rfl⟩ := step_move hc.good h
  have hfault : ch.fault = none := by
    cases hm with
    | threw => exact absurd hs id
    | built => exact absurd hs id
    | _ => rfl
  have hcost := move_cost hm hs
  have hsum := cost_apply hm.fits
  refine ⟨⟨hg, move_prompt hc.prompt hc.good.counted hc.good.linked hn hm,
    move_drained hc.drained hm, move_kept hc.kept hj hm, move_housed hc.housed hm, hr, ?_⟩, ?_⟩
  · simp [Change.apply, hfault, hc.fault]
  · omega

/-- A queue whose worker has left has no task that is not finished. -/
theorem finished_of_left (hs : Sound c) {q : QueueId} {tq : TaskQueue α} {i : ContextId}
    {ctx : TaskContext α} (hq : c.queues[q]? = some tq) (hw : tq.worker = .left)
    (hi : c.contexts[i]? = some ctx) (hown : ctx.task_queue_ = q) : ctx.pc.unfinished = false := by
  have hok := hs.queue q tq hq
  have hzero : total (unfinished q) c.contexts = 0 := by
    have h1 := hok.count_eq
    have h2 := (hok.left_ok hw).2
    omega
  have hctx := (total_eq_zero_iff _ _).mp hzero ctx (List.mem_of_getElem? hi)
  rw [unfinished_own hown] at hctx
  cases hu : ctx.pc.unfinished
  · rfl
  · simp [hu] at hctx

/-- Where nothing can go on, all is at rest. -/
theorem rest_of_stuck [Inhabited α] (hc : Calm c) (hend : ¬ CanSettle c) : AtRest c := by
  have hbusy : ∀ (q : QueueId) tq, c.queues[q]? = some tq →
      tq.worker = .left ∨ tq.worker = .asleep := by
    intro q tq hq
    apply Classical.byContradiction
    intro hno
    obtain ⟨hl, hs⟩ := not_or.mp hno
    exact hend (can_settle_of_busy hc.good hc.prompt hc.housed hc.fault hq hs hl)
  have hloops : ∀ (d : Nat) f cs, c.setters[d]? = some (f, cs) → cs = [] := by
    intro d f cs hd
    cases cs with
    | nil => rfl
    | cons k cs => exact absurd (can_settle_of_loop hc.good hc.housed hc.fault hd) hend
  refine ⟨?_, ?_, hloops⟩
  · intro q tq hq
    rcases hbusy q tq hq with hw | hw
    · exact Or.inl hw
    · obtain ⟨hempty, hjoin⟩ := hc.rested tq (List.mem_of_getElem? hq) hw
      refine Or.inr ⟨hw, hempty, ?_⟩
      intro hj
      have hcount := (hc.good.sound.queue q tq hq).count_eq
      have hne : tq.in_progress_count_ ≠ 0 := fun h0 => hjoin ⟨hj, h0⟩
      omega
  · intro i ctx hi
    have hruns : ctx.pc.runs = false := by
      cases hr : ctx.pc.runs with
      | false => rfl
      | true =>
        obtain ⟨tq, hq, hon⟩ := hc.good.sound.context i ctx hi hr
        rcases hbusy _ tq hq with hw | hw <;> simp [hw, Worker.onStack] at hon
    cases hu : ctx.pc.unfinished with
    | false =>
      refine Or.inl ?_
      cases hpc : ctx.pc <;> simp_all [Pc.runs, Pc.unfinished]
    | true =>
      obtain ⟨f, n, hpc⟩ := suspended_of_unfinished hu hruns
      refine Or.inr ⟨f, n, ?_⟩
      cases located hc.good hc.drained hc.kept hi hpc with
      | registered hf hr hk _ _ => exact ⟨_, hpc, hf, hr, hk⟩
      | taken hd hk _ _ =>
        rw [hloops _ _ _ hd] at hk
        cases hk
      | queued hq hk _ _ _ =>
        rcases hbusy _ _ hq with hw | hw
        · have hfin := finished_of_left hc.good.sound hq hw hi rfl
          rw [hu] at hfin
          cases hfin
        · have hempty := (hc.rested _ (List.mem_of_getElem? hq) hw).1
          rcases hk with hk | hk
          · rw [hempty] at hk
            cases hk
          · rw [hw] at hk
            cases hk

end

end ltl.task_queue
