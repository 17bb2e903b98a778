-- The calls of `join` of one queue, and the futures that were returned by
-- `push_back` and `push_back_resumable` before them. `join` clears `queue_`, and a
-- function that is dropped leaves its future as it is.
import Ltl.StartOrder

open ltl.future_state slots counts runs

namespace ltl.task_queue

variable {α χ : Type}

/-! ## Calls of join -/

def WorkItem.promise_ : WorkItem → Option FutureId
  | .task p _ => p
  | _ => none

/-- The futures of the functions in `queue_`. -/
def promises (wis : List WorkItem) : List FutureId := wis.filterMap WorkItem.promise_

def Worker.hasLeft : Worker α → Bool
  | .left => true
  | _ => false

/-- A configuration with the calls of `join` of one queue: whether its thread is joinable, the
futures returned by `push_back` and `push_back_resumable` of the queue so far, those that were
returned before the calls that are in `thread_.join()` and before the calls that have returned, and
those whose functions a call found in `queue_`. -/
structure Joins (α χ : Type) where
  config : Config α χ
  joinable : Bool := true
  pushed : List FutureId := []
  before : List FutureId := []
  returned : List FutureId := []
  found : List FutureId := []
  deriving DecidableEq, Repr

/-- Some other step, a call of `join`, or the end of `thread_.join()`. -/
inductive JoinEvent (α χ : Type) where
  | other (e : Event α χ)
  | join
  | joined

def isJoinOf (q : QueueId) : Event α χ → Bool
  | .join q' => q' == q
  | _ => false

/-- The future that a step returns to the caller of `push_back` or `push_back_resumable` of `q`. -/
def returnsFuture (q : QueueId) (c : Config α χ) : Event α χ → List FutureId
  | .push_back _ q' _ => if q' = q then [c.futures.length] else []
  | _ => []

def joinStep (q : QueueId) (s : Joins α χ) (e : JoinEvent α χ) : Option (Joins α χ) :=
  match s.config.queues[q]? with
  | none => none
  | some tq =>
    match e with
    | .other e =>
      if isJoinOf q e then none
      else
        (step s.config e).map (fun c =>
          { s with config := c, pushed := s.pushed ++ returnsFuture q s.config e })
    | .join =>
      if s.joinable then
        (step s.config (.join q)).map (fun c =>
          { s with config := c, before := s.pushed, found := s.found ++ promises tq.queue_ })
      -- a thread that was joined already: `join` returns at once
      else if s.config.fault.isSome then none
      else some { s with returned := s.pushed, found := s.found ++ promises tq.queue_ }
    | .joined =>
      if s.config.fault.isSome then none
      else if s.joinable && tq.worker.hasLeft then
        some { s with joinable := false, returned := s.before }
      else none

/-! ## Where a function is -/

/-- The function with the promise `f` is in `queue_` of `q`. -/
def Queued (c : Config α χ) (q : QueueId) (f : FutureId) : Prop :=
  ∃ tq, c.queues[q]? = some tq ∧ f ∈ promises tq.queue_

/-- The worker of `q` has taken the function with the promise `f`, which is not set yet. -/
inductive InHand (c : Config α χ) (q : QueueId) (f : FutureId) : Prop where
  | picked {tq : TaskQueue α} {policy : SchedulingPolicy} (hq : c.queues[q]? = some tq)
      (hw : tq.worker = .picked (.task (some f) policy))
  | plain {tq : TaskQueue α} {s : Stage α} (hq : c.queues[q]? = some tq)
      (hw : tq.worker = .plain (some f) s) (hs : s.unset = true)
  | context {i : ContextId} {ctx : TaskContext α} (hi : c.contexts[i]? = some ctx)
      (hown : ctx.task_queue_ = q) (hf : ctx.func_ = some f) (hp : ctx.pc.unset = true)

theorem mem_promises {wis : List WorkItem} {f : FutureId} :
    f ∈ promises wis ↔ ∃ policy, WorkItem.task (some f) policy ∈ wis := by
  unfold promises
  rw [List.mem_filterMap]
  constructor
  · rintro ⟨wi, hwi, hp⟩
    cases wi with
    | task p policy =>
      simp only [WorkItem.promise_] at hp
      subst hp
      exact ⟨policy, hwi⟩
    | _ => simp [WorkItem.promise_] at hp
  · rintro ⟨policy, hwi⟩
    exact ⟨_, hwi, rfl⟩

section
variable {c : Config α χ} {e : Event α χ} {ch : Change α χ} {q : QueueId} {f : FutureId}

theorem ready_of_stored {v : α} (h : Stored c f v) : Ready c f := by
  obtain ⟨s, hs, hv⟩ := h
  refine ⟨s, hs, ?_⟩
  unfold ready
  rw [hv]
  rfl

theorem picked_next (h : Move c e ch) {tq tq' : TaskQueue α} {policy : SchedulingPolicy}
    (hw : tq.worker = .picked (.task (some f) policy)) (hset : ch.queues = .set q tq tq') :
    tq'.worker = tq.worker ∨ InHand (ch.apply c) q f := by
  have hq : c.queues[q]? = some tq := by
    have := h.fits.queues
    rw [hset] at this
    exact this
  have hq' : (ch.apply c).queues[q]? = some tq' := by
    show (ch.queues.apply c.queues)[q]? = _
    rw [hset]
    exact List.getElem?_set_self (List.getElem?_eq_some_iff.mp hq).1
  rcases worker_next h (by rw [hw]; simp) hset with hsame | hmove
  · exact Or.inl hsame
  · right
    cases hw' : tq'.worker with
    | plain p s =>
      rw [hw'] at hmove
      cases hmove with
      | plain hp =>
        rw [hw] at hp
        cases hp
        exact .plain hq' hw' rfl
      | _ => simp_all only [reduceCtorEq]
    | fiber i =>
      rw [hw'] at hmove
      cases hmove with
      | start hp hi hown hfunc hpc =>
        rw [hw] at hp
        cases hp
        exact .context hi hown hfunc (by rw [hpc]; rfl)
      | _ => simp_all only [reduceCtorEq, Worker.picked.injEq]
    | _ =>
      rw [hw'] at hmove
      cases hmove <;> simp_all only [reduceCtorEq, Worker.picked.injEq]

theorem plain_next (h : Move c e ch) {tq tq' : TaskQueue α} {s : Stage α}
    (hw : tq.worker = .plain (some f) s) (hs : s.unset = true)
    (hset : ch.queues = .set q tq tq') :
    (∃ s', tq'.worker = .plain (some f) s' ∧ s'.unset = true) ∨ Ready (ch.apply c) f := by
  cases s with
  | set_value v =>
    rcases plain_goes_on h hw hset with hw' | hst
    · exact Or.inl ⟨_, hw'.trans hw, rfl⟩
    · exact Or.inr (ready_of_stored hst)
  | drain d => cases hs
  | task_ =>
    left
    rcases worker_next h (by rw [hw]; simp) hset with hsame | hmove
    · exact ⟨_, hsame.trans hw, rfl⟩
    · generalize tq'.worker = w at hmove
      cases hmove with
      | returned hw' =>
        rw [hw] at hw'
        cases hw'
        exact ⟨_, rfl, rfl⟩
      | ended hw' he =>
        rw [hw] at hw'
        cases hw'
        cases he
      | _ => simp_all only [reduceCtorEq, Worker.plain.injEq, and_false]

theorem context_next (h : Move c e ch) {i : ContextId} {ctx ctx' : TaskContext α}
    (hf : ctx.func_ = some f) (hp : ctx.pc.unset = true) (hset : ch.contexts = .set i ctx ctx') :
    (ctx'.task_queue_ = ctx.task_queue_ ∧ ctx'.func_ = some f ∧ ctx'.pc.unset = true) ∨
      Ready (ch.apply c) f := by
  cases h with
  | start_free hq hw hc hf' hi hown hp' =>
    cases hset
    rw [hp'] at hp
    cases hp
  | fiber_ended hq hw hi hp' he =>
    cases hset
    rw [hp'] at hp
    rw [hf] at he
    cases he
    cases hp
  | fiber_stored hq hw hi hp' hfunc hf' hr =>
    cases hset
    rw [hf] at hfunc
    cases hfunc
    refine Or.inr ⟨_, List.getElem?_set_self (List.getElem?_eq_some_iff.mp hf').1, ?_⟩
    rfl
  | completed hq hw hi hp' =>
    cases hset
    rw [hp'] at hp
    cases hp
  | parked hq hw hi hp' =>
    cases hset
    rw [hp'] at hp
    cases hp
  | _ => cases hset <;> exact Or.inl ⟨rfl, hf, rfl⟩

/-- A function in hand stays there until its future is ready. -/
theorem InHand.next (h : Move c e ch) (hh : InHand c q f) :
    InHand (ch.apply c) q f ∨ Ready (ch.apply c) f := by
  cases hh with
  | picked hq hw =>
    rcases Slot.apply_getElem? h.fits.queues hq with hq' | ⟨new, hset, hq'⟩
    · exact Or.inl (.picked hq' hw)
    · rcases picked_next h hw hset with hw' | hh
      · exact Or.inl (.picked hq' (hw'.trans hw))
      · exact Or.inl hh
  | plain hq hw hs =>
    rcases Slot.apply_getElem? h.fits.queues hq with hq' | ⟨new, hset, hq'⟩
    · exact Or.inl (.plain hq' hw hs)
    · rcases plain_next h hw hs hset with ⟨s', hw', hs'⟩ | hr
      · exact Or.inl (.plain hq' hw' hs')
      · exact Or.inr hr
  | context hi hown hf hp =>
    rcases Slot.apply_getElem? h.fits.contexts hi with hi' | ⟨new, hset, hi'⟩
    · exact Or.inl (.context hi' hown hf hp)
    · rcases context_next h hf hp hset with ⟨hown', hf', hp'⟩ | hr
      · exact Or.inl (.context hi' (hown'.trans hown) hf' hp')
      · exact Or.inr hr

/-- Nothing is in the hand of a worker that has left. -/
theorem not_inHand_of_left (hs : Sound c) {tq : TaskQueue α} (hq : c.queues[q]? = some tq)
    (hw : tq.worker = .left) : ¬ InHand c q f := by
  intro hh
  cases hh with
  | picked hq' hw' =>
    rw [hq] at hq'
    cases hq'
    rw [hw] at hw'
    cases hw'
  | plain hq' hw' hs' =>
    rw [hq] at hq'
    cases hq'
    rw [hw] at hw'
    cases hw'
  | context hi hown hf hp =>
    rename_i i ctx
    -- its task would be counted in `in_progress_count_`, which is zero
    have hok := hs.queue q tq hq
    have hcount := hok.count_eq
    rw [(hok.left_ok hw).2] at hcount
    have hle := le_total (unfinished q) c.contexts ctx (List.mem_of_getElem? hi)
    have hone : unfinished q ctx = 1 := by
      refine if_pos ⟨hown, ?_⟩
      cases hpc : ctx.pc with
      | parked =>
        rw [hpc] at hp
        cases hp
      | last_yield =>
        rw [hpc] at hp
        cases hp
      | _ => rfl
    omega

/-- A queued function stays in `queue_` until the worker takes it, or a call of `join`. -/
theorem Queued.next {c' : Config α χ} (ho : Open c) (h : step c e = some c')
    (hj : NoJoinOf q c e) (hh : Queued c q f) : Queued c' q f ∨ InHand c' q f := by
  obtain ⟨tq, hq, hf⟩ := hh
  obtain ⟨tq', hq'⟩ := queue_after ho h hq
  obtain ⟨policy, hf⟩ := mem_promises.mp hf
  have hstays : ∀ {wis}, wis = tq'.queue_ → .task (some f) policy ∈ wis → Queued c' q f := by
    intro wis he hmem
    subst he
    exact ⟨_, hq', mem_promises.mpr ⟨policy, hmem⟩⟩
  cases step_turn ho h hj hq hq' with
  | idle hs he hw => exact Or.inl (hstays he.symm hf)
  | resume i n hs he hw => exact Or.inl (hstays he.symm (List.mem_cons_of_mem _ hf))
  | submit wi hs hr he hw => exact Or.inl (hstays he.symm (List.mem_append_left _ hf))
  | take wi hs he hw hw' =>
    rw [he] at hf
    rcases List.mem_cons.mp hf with rfl | hf
    · exact Or.inr (.picked hq' (picked_of_hand hw'))
    · exact Or.inl (hstays rfl hf)
  | start hs he hw' => exact Or.inl (hstays he.symm hf)

end

/-! ## What is dropped -/

theorem holding_of_queued {c : Config α χ} {q : QueueId} {f : FutureId} (h : Queued c q f) :
    0 < weigh (Weights.holding α χ f) c := by
  obtain ⟨tq, hq, hf⟩ := h
  obtain ⟨policy, hf⟩ := mem_promises.mp hf
  have h1 := le_total (Weights.holding α χ f).item tq.queue_ _ hf
  have h2 := le_total (Weights.holding α χ f).queue c.queues tq (List.mem_of_getElem? hq)
  have h3 : (Weights.holding α χ f).item (.task (some f) policy) = 1 := keeps_self f
  have h4 : total (Weights.holding α χ f).item tq.queue_ ≤ (Weights.holding α χ f).queue tq :=
    Nat.le_add_right _ _
  unfold weigh
  omega

theorem not_ready_of_holding {c : Config α χ} {f : FutureId} (hd : Held c)
    (h : 0 < weigh (Weights.holding α χ f) c) : ¬ Ready c f := by
  rintro ⟨s, hs, hr⟩
  rw [hd.fresh f s h hs] at hr
  cases hr

/-- Nothing holds the promise `f` of a submitted function, which is not set. -/
structure Dropped (c : Config α χ) (f : FutureId) : Prop where
  wrapped : f ∈ c.wrapped
  nobody : weigh (Weights.holding α χ f) c = 0
  unset : ¬ Ready c f

theorem Dropped.next {c : Config α χ} {e : Event α χ} {ch : Change α χ} {f : FutureId}
    (hd : Held c) (h : Move c e ch) (hf : Dropped c f) : Dropped (ch.apply c) f := by
  have hw := Change.weigh_apply (Weights.holding α χ f) h.fits
  have hzero := hf.nobody
  refine ⟨h.mem_wrapped.mpr (Or.inl hf.wrapped), ?_, ?_⟩
  · rcases holding_step h f with hc | ⟨hadd, -⟩
    · omega
    · have hlt := hd.wrapped_lt f hf.wrapped
      rw [(h.wrapped_add hadd).1] at hlt
      exact absurd hlt (Nat.lt_irrefl _)
  · rintro ⟨s, hs, hr⟩
    rcases Slot.getElem?_apply hs with ⟨hs, -⟩ | ⟨old, hset⟩ | ⟨hadd, hlen⟩
    · exact hf.unset ⟨s, hs, hr⟩
    · have hold : c.futures[f]? = some old := by
        have := h.fits.futures
        rw [hset] at this
        exact this
      cases hr' : ready old with
      | true => exact hf.unset ⟨old, hold, hr'⟩
      | false =>
        rcases holding_stored h hset hr' hr with hn | hlt
        · exact hn hf.wrapped
        · omega
    · have hlt := hd.wrapped_lt f hf.wrapped
      rw [hlen] at hlt
      exact absurd hlt (Nat.lt_irrefl _)

/-- A call of `join` drops the functions that it finds in `queue_`. -/
theorem dropped_of_join {c : Config α χ} {q : QueueId} {tq : TaskQueue α} {f : FutureId}
    (hd : Held c) (hq : c.queues[q]? = some tq) (hf : Queued c q f) :
    Dropped (({ queues := .set q tq tq.join } : Change α χ).apply c) f := by
  have hm : Move c (.join q) { queues := .set q tq tq.join } := .join hq
  have hpos := holding_of_queued hf
  have hunset : ¬ Ready c f := not_ready_of_holding hd hpos
  refine ⟨hd.wrapped f hpos, ?_, hunset⟩
  have hone := hd.one f
  have hw := Change.weigh_apply (Weights.holding α χ f) hm.fits
  obtain ⟨t, ht, hf⟩ := hf
  rw [hq] at ht
  cases ht
  obtain ⟨policy, hf⟩ := mem_promises.mp hf
  have h1 := le_total (Weights.holding α χ f).item tq.queue_ _ hf
  have h3 : (Weights.holding α χ f).item (.task (some f) policy) = 1 := keeps_self f
  simp only [Change.gone, Change.come, Slot.gone, Slot.come, Weights.queue_join] at hw
  unfold Weights.queue at hw
  omega

/-! ## The calls in a run -/

/-- Future `f`, whose function a call of `join` found in `queue_`, is lost: it was dropped, or it
is behind a worker that has left. -/
def Lost (s : Joins α χ) (q : QueueId) (f : FutureId) : Prop :=
  Dropped s.config f ∨ (s.joinable = false ∧ Queued s.config q f)

/-- What holds of the futures of `q` and its calls of `join`. -/
structure Tracked (q : QueueId) (s : Joins α χ) : Prop where
  kept : Open s.config
  pushed : s.config.fault = none → ∀ f ∈ s.pushed,
    Ready s.config f ∨ InHand s.config q f ∨ Queued s.config q f ∨ f ∈ s.found
  before : s.config.fault = none → ∀ f ∈ s.before,
    Ready s.config f ∨ InHand s.config q f ∨ f ∈ s.found
  found : s.config.fault = none → ∀ f ∈ s.found, Lost s q f
  left : s.joinable = false → ∃ tq, s.config.queues[q]? = some tq ∧ tq.worker = .left
  returned : ∀ f ∈ s.returned, Ready s.config f ∨ f ∈ s.found
  unset : ∀ f ∈ s.found, ¬ Ready s.config f

theorem init_tracked (q n : Nat) : Tracked q ({ config := init α χ n } : Joins α χ) := by
  refine ⟨init_open n, ?_, ?_, ?_, nofun, ?_, ?_⟩
  · intro _ f hf
    cases hf
  · intro _ f hf
    cases hf
  · intro _ f hf
    cases hf
  · intro f hf
    cases hf
  · intro f hf
    cases hf

theorem joinStep_cases {q : QueueId} {s s' : Joins α χ} {e : JoinEvent α χ}
    (h : joinStep q s e = some s') :
    s.config.fault = none ∧ ∃ tq, s.config.queues[q]? = some tq ∧
      ((∃ ev c, isJoinOf q ev = false ∧ step s.config ev = some c ∧
        s' = { s with config := c, pushed := s.pushed ++ returnsFuture q s.config ev }) ∨
      (∃ c, step s.config (.join q) = some c ∧
        s' = { s with config := c, before := s.pushed, found := s.found ++ promises tq.queue_ }) ∨
      (s.joinable = false ∧
        s' = { s with returned := s.pushed, found := s.found ++ promises tq.queue_ }) ∨
      (tq.worker = .left ∧ s' = { s with joinable := false, returned := s.before })) := by
  unfold joinStep at h
  split at h
  · cases h
  · rename_i tq hq
    split at h
    · rename_i ev
      split at h
      · cases h
      · rename_i hj
        obtain ⟨c, hc, rfl⟩ := Option.map_eq_some_iff.mp h
        exact ⟨(step_does hc).1, tq, hq, Or.inl ⟨ev, c, by simpa using hj, hc, rfl⟩⟩
    · split at h
      · obtain ⟨c, hc, rfl⟩ := Option.map_eq_some_iff.mp h
        exact ⟨(step_does hc).1, tq, hq, Or.inr (Or.inl ⟨c, hc, rfl⟩)⟩
      · rename_i hjoin
        split at h
        · cases h
        · rename_i hx
          cases h
          exact ⟨by simpa using hx, tq, hq, Or.inr (Or.inr (Or.inl ⟨by simpa using hjoin, rfl⟩))⟩
    · split at h
      · cases h
      · rename_i hx
        split at h
        · rename_i hleft
          cases h
          refine ⟨by simpa using hx, tq, hq, Or.inr (Or.inr (Or.inr ⟨?_, rfl⟩))⟩
          cases hw : tq.worker <;> simp_all [Worker.hasLeft]
        · cases h

section
variable {c c' : Config α χ} {e : Event α χ} {ch : Change α χ} {q : QueueId} {f : FutureId}

/-- A worker that has left is out of the loop for good. -/
theorem left_next (h : Move c e ch) {tq : TaskQueue α} (hq : c.queues[q]? = some tq)
    (hw : tq.worker = .left) :
    ∃ tq', (ch.apply c).queues[q]? = some tq' ∧ tq'.worker = .left := by
  rcases Slot.apply_getElem? h.fits.queues hq with hq' | ⟨new, hset, hq'⟩
  · exact ⟨tq, hq', hw⟩
  · refine ⟨new, hq', ?_⟩
    rcases worker_next h (by rw [hw]; simp) hset with hsame | hmove
    · exact hsame.trans hw
    · generalize new.worker = w at hmove
      cases hmove <;> simp_all only [reduceCtorEq]

theorem noJoinOf {e : Event α χ} (h : isJoinOf q e = false) : NoJoinOf q c e := by
  rintro q' rfl hq
  subst hq
  simp [isJoinOf] at h

theorem mem_returnsFuture {e : Event α χ} (h : f ∈ returnsFuture q c e) :
    ∃ thread policy, e = .push_back thread q policy ∧ f = c.futures.length := by
  unfold returnsFuture at h
  split at h
  · rename_i thread q' policy
    split at h
    · rename_i hq
      subst hq
      exact ⟨thread, policy, rfl, List.mem_singleton.mp h⟩
    · cases h
  · cases h

/-- The function whose future is returned is in `queue_` then. -/
theorem queued_of_returned (ho : Open c) (h : step c e = some c')
    (hj : isJoinOf q e = false) {tq : TaskQueue α} (hq : c.queues[q]? = some tq)
    (hf : f ∈ returnsFuture q c e) : Queued c' q f := by
  obtain ⟨thread, policy, rfl, rfl⟩ := mem_returnsFuture hf
  obtain ⟨tq', hq'⟩ := queue_after ho h hq
  refine ⟨tq', hq', mem_promises.mpr ⟨policy, ?_⟩⟩
  have hsub : submits q c (.push_back thread q policy) = some (.task (some c.futures.length) policy) :=
    if_pos rfl
  cases step_turn ho h (noJoinOf hj) hq hq' with
  | submit wi hs hr he hw =>
    rw [hsub] at hs
    cases hs
    rw [he]
    exact List.mem_append_right _ List.mem_cons_self
  | idle hs he hw =>
    rw [hsub] at hs
    cases hs
  | resume i n hs he hw =>
    rw [hsub] at hs
    cases hs
  | take wi hs he hw hw' =>
    rw [hsub] at hs
    cases hs
  | start hs he hw' =>
    rw [hsub] at hs
    cases hs

theorem ready_step (ho : Open c) (h : step c e = some c') (hr : Ready c f) : Ready c' f := by
  rcases move_or_last ho h with ⟨ch, hm, rfl⟩ | ⟨-, hsame, -⟩
  · exact hr.next hm
  · unfold Ready
    rw [hsame]
    exact hr

end

/-- What is lost stays so in a move that is no call of `join` of `q`. -/
theorem Lost.next {q : QueueId} {s : Joins α χ} {ev : Event α χ} {ch : Change α χ} {f : FutureId}
    (ht : Tracked q s) (hx : s.config.fault = none) (hj : NoJoinOf q s.config ev)
    (h : step s.config ev = some (ch.apply s.config)) (hm : Move s.config ev ch)
    (hf : Lost s q f) :
    ¬ Ready (ch.apply s.config) f ∧
      (Dropped (ch.apply s.config) f ∨
        (s.joinable = false ∧ Queued (ch.apply s.config) q f)) := by
  obtain ⟨hs, hd⟩ := ht.kept.kept hx
  rcases hf with hf | ⟨hjoin, hf⟩
  · have hf' := hf.next hd hm
    exact ⟨hf'.unset, Or.inl hf'⟩
  · have hq' : Queued (ch.apply s.config) q f := by
      rcases hf.next ht.kept h hj with hf' | hf'
      · exact hf'
      · -- the worker has left and takes nothing any more
        obtain ⟨tq, hq, hw⟩ := ht.left hjoin
        obtain ⟨tq', hq', hw'⟩ := left_next hm hq hw
        exact absurd hf' (not_inHand_of_left (move_sound hs hm) hq' hw')
    exact ⟨not_ready_of_holding (move_held hd hm) (holding_of_queued hq'), Or.inr ⟨hjoin, hq'⟩⟩

/-- The futures after a step of the queues, but for a call of `join` of `q`. -/
theorem other_tracked {q : QueueId} {s : Joins α χ} {ev : Event α χ} {c : Config α χ}
    {tq : TaskQueue α} (ht : Tracked q s) (hx : s.config.fault = none)
    (hq : s.config.queues[q]? = some tq) (hj : isJoinOf q ev = false)
    (h : step s.config ev = some c) :
    Tracked q { s with config := c, pushed := s.pushed ++ returnsFuture q s.config ev } := by
  have ho := ht.kept
  have hreturned : ∀ f ∈ s.returned, Ready c f ∨ f ∈ s.found := by
    intro f hf
    exact (ht.returned f hf).imp (ready_step ho h) id
  rcases move_or_last ho h with ⟨ch, hm, rfl⟩ | ⟨hsame, hfut, hfault⟩
  · refine ⟨step_open ho h, ?_, ?_, ?_, ?_, hreturned, ?_⟩
    · intro _ f hf
      rcases List.mem_append.mp hf with hf | hf
      · rcases ht.pushed hx f hf with hr | hh | hh | hfound
        · exact Or.inl (hr.next hm)
        · rcases hh.next hm with hh | hr
          · exact Or.inr (Or.inl hh)
          · exact Or.inl hr
        · rcases hh.next ho h (noJoinOf hj) with hh | hh
          · exact Or.inr (Or.inr (Or.inl hh))
          · exact Or.inr (Or.inl hh)
        · exact Or.inr (Or.inr (Or.inr hfound))
      · exact Or.inr (Or.inr (Or.inl (queued_of_returned ho h hj hq hf)))
    · intro _ f hf
      rcases ht.before hx f hf with hr | hh | hfound
      · exact Or.inl (hr.next hm)
      · rcases hh.next hm with hh | hr
        · exact Or.inr (Or.inl hh)
        · exact Or.inl hr
      · exact Or.inr (Or.inr hfound)
    · intro _ f hf
      exact (Lost.next ht hx (noJoinOf hj) h hm (ht.found hx f hf)).2
    · intro hjoin
      obtain ⟨tq, hq, hw⟩ := ht.left hjoin
      exact left_next hm hq hw
    · intro f hf
      exact (Lost.next ht hx (noJoinOf hj) h hm (ht.found hx f hf)).1
  · refine ⟨step_open ho h, fun hn => absurd hn hfault, fun hn => absurd hn hfault,
      fun hn => absurd hn hfault, ?_, hreturned, ?_⟩
    · intro hjoin
      obtain ⟨tq, hq, hw⟩ := ht.left hjoin
      exact ⟨tq, by rw [hsame]; exact hq, hw⟩
    · intro f hf hr
      refine ht.unset f hf ?_
      unfold Ready at hr ⊢
      rw [← hfut]
      exact hr

/-- A call of `join` of `q`, up to `thread_.join()`. -/
theorem join_tracked {q : QueueId} {s : Joins α χ} {c : Config α χ} {tq : TaskQueue α}
    (ht : Tracked q s) (hx : s.config.fault = none) (hq : s.config.queues[q]? = some tq)
    (h : step s.config (.join q) = some c) :
    Tracked q { s with
      config := c
      before := s.pushed
      found := s.found ++ promises tq.queue_ } := by
  have ho := ht.kept
  obtain ⟨hs, hd⟩ := ho.kept hx
  have hm : Move s.config (.join q) { queues := .set q tq tq.join } := .join hq
  have hc : c = ({ queues := .set q tq tq.join } : Change α χ).apply s.config := by
    unfold step at h
    simp only [hx, hq, Option.isSome_none, Bool.false_eq_true, if_false, Option.some.injEq] at h
    rw [← h]
    simp [Change.apply, Config.setQueue]
  subst hc
  have hfound : ∀ {f}, f ∈ promises tq.queue_ → f ∈ s.found ++ promises tq.queue_ :=
    fun hf => List.mem_append_right _ hf
  have hplaced : ∀ f ∈ s.pushed,
      Ready (({ queues := .set q tq tq.join } : Change α χ).apply s.config) f ∨
      InHand (({ queues := .set q tq tq.join } : Change α χ).apply s.config) q f ∨
      f ∈ s.found ++ promises tq.queue_ := by
    intro f hf
    rcases ht.pushed hx f hf with hr | hh | ⟨t, hqt, hmem⟩ | hf
    · exact Or.inl (hr.next hm)
    · rcases hh.next hm with hh | hr
      · exact Or.inr (Or.inl hh)
      · exact Or.inl hr
    · rw [hq] at hqt
      cases hqt
      exact Or.inr (Or.inr (hfound hmem))
    · exact Or.inr (Or.inr (List.mem_append_left _ hf))
  have hlost : ∀ f ∈ s.found ++ promises tq.queue_,
      Dropped (({ queues := .set q tq tq.join } : Change α χ).apply s.config) f := by
    intro f hf
    rcases List.mem_append.mp hf with hf | hf
    · rcases ht.found hx f hf with hdrop | ⟨-, hqueued⟩
      · exact hdrop.next hd hm
      · exact dropped_of_join hd hq hqueued
    · exact dropped_of_join hd hq ⟨tq, hq, hf⟩
  refine ⟨step_open ho h, ?_, fun _ => hplaced, fun _ f hf => Or.inl (hlost f hf), ?_, ?_, ?_⟩
  · intro _ f hf
    rcases hplaced f hf with hr | hh | hf
    · exact Or.inl hr
    · exact Or.inr (Or.inl hh)
    · exact Or.inr (Or.inr (Or.inr hf))
  · intro hjoin
    obtain ⟨t, hqt, hw⟩ := ht.left hjoin
    exact left_next hm hqt hw
  · intro f hf
    exact (ht.returned f hf).imp (ready_step ho h) (fun hf => List.mem_append_left _ hf)
  · intro f hf
    exact (hlost f hf).unset

/-- A call of `join` after `thread_` has been joined. -/
theorem late_tracked {q : QueueId} {s : Joins α χ} {tq : TaskQueue α} (ht : Tracked q s)
    (hx : s.config.fault = none) (hq : s.config.queues[q]? = some tq)
    (hjoin : s.joinable = false) :
    Tracked q { s with returned := s.pushed, found := s.found ++ promises tq.queue_ } := by
  obtain ⟨hs, hd⟩ := ht.kept.kept hx
  obtain ⟨t, hqt, hw⟩ := ht.left hjoin
  rw [hq] at hqt
  cases hqt
  refine ⟨ht.kept, ?_, ?_, ?_, ht.left, ?_, ?_⟩
  · intro _ f hf
    rcases ht.pushed hx f hf with hr | hh | hh | hf
    · exact Or.inl hr
    · exact Or.inr (Or.inl hh)
    · exact Or.inr (Or.inr (Or.inl hh))
    · exact Or.inr (Or.inr (Or.inr (List.mem_append_left _ hf)))
  · intro _ f hf
    rcases ht.before hx f hf with hr | hh | hf
    · exact Or.inl hr
    · exact Or.inr (Or.inl hh)
    · exact Or.inr (Or.inr (List.mem_append_left _ hf))
  · intro _ f hf
    rcases List.mem_append.mp hf with hf | hf
    · exact ht.found hx f hf
    · exact Or.inr ⟨hjoin, tq, hq, hf⟩
  · intro f hf
    rcases ht.pushed hx f hf with hr | hh | ⟨t, hqt, hmem⟩ | hf
    · exact Or.inl hr
    · exact absurd hh (not_inHand_of_left hs hq hw)
    · rw [hq] at hqt
      cases hqt
      exact Or.inr (List.mem_append_right _ hmem)
    · exact Or.inr (List.mem_append_left _ hf)
  · intro f hf
    rcases List.mem_append.mp hf with hf | hf
    · exact ht.unset f hf
    · exact not_ready_of_holding hd (holding_of_queued ⟨tq, hq, hf⟩)

/-- The end of `thread_.join()`. -/
theorem joined_tracked {q : QueueId} {s : Joins α χ} {tq : TaskQueue α} (ht : Tracked q s)
    (hx : s.config.fault = none) (hq : s.config.queues[q]? = some tq) (hw : tq.worker = .left) :
    Tracked q { s with joinable := false, returned := s.before } := by
  obtain ⟨hs, hd⟩ := ht.kept.kept hx
  refine ⟨ht.kept, ht.pushed, ht.before, ?_, fun _ => ⟨tq, hq, hw⟩, ?_, ht.unset⟩
  · intro _ f hf
    rcases ht.found hx f hf with hdrop | ⟨-, hqueued⟩
    · exact Or.inl hdrop
    · exact Or.inr ⟨rfl, hqueued⟩
  · intro f hf
    rcases ht.before hx f hf with hr | hh | hf
    · exact Or.inl hr
    · exact absurd hh (not_inHand_of_left hs hq hw)
    · exact Or.inr hf

theorem step_tracked {q : QueueId} {s s' : Joins α χ} {e : JoinEvent α χ} (ht : Tracked q s)
    (h : joinStep q s e = some s') : Tracked q s' := by
  obtain ⟨hx, tq, hq, hcases⟩ := joinStep_cases h
  rcases hcases with ⟨ev, c, hj, hc, rfl⟩ | ⟨c, hc, rfl⟩ | ⟨hjoin, rfl⟩ | ⟨hw, rfl⟩
  · exact other_tracked ht hx hq hj hc
  · exact join_tracked ht hx hq hc
  · exact late_tracked ht hx hq hjoin
  · exact joined_tracked ht hx hq hw

/-! ## The law -/

/-- `join` leaves the futures of the functions unresolved that it finds in `queue_`, and no other
one: after a call has returned, all futures that `push_back` and `push_back_resumable` returned
before it are ready exactly when no call found the function of one of them waiting. -/
theorem join_resolves_what_it_does_not_find (q n : Nat) (s : Joins α χ)
    (h : Reach (joinStep q) anyEvent { config := init α χ n } s) :
    (∀ f ∈ s.returned, Ready s.config f) ↔ ∀ f ∈ s.returned, f ∉ s.found := by
  have ht := h.invariant (init_tracked q n) (fun _ _ _ ht _ hs => step_tracked ht hs)
  constructor
  · intro hready f hf hfound
    exact ht.unset f hfound (hready f hf)
  · intro hno f hf
    rcases ht.returned f hf with hr | hfound
    · exact hr
    · exact absurd hfound (hno f hf)

/-- A function that is still in `queue_` when `join` is called never runs, and its future stays as
it is after the call has returned. -/
theorem join_drops_a_function :
    ∃ s, Reach (joinStep 0) anyEvent ({ config := init Nat Nat 1 } : Joins Nat Nat) s ∧
      0 ∈ s.returned ∧ ¬ Ready s.config 0 := by
  have hrun : ∃ s, run (joinStep 0) ({ config := init Nat Nat 1 } : Joins Nat Nat)
      [.other (.push_back none 0 .resumable), .join, .other (.worker 0 none), .joined] = some s ∧
        s.returned = [0] ∧ s.found = [0] := ⟨_, rfl, rfl, rfl⟩
  obtain ⟨s, hs, hret, hfound⟩ := hrun
  have hr := reach_anyEvent hs
  refine ⟨s, hr, by simp [hret], ?_⟩
  have ht := hr.invariant (init_tracked 0 1) (fun _ _ _ ht _ hs => step_tracked ht hs)
  exact ht.unset 0 (by simp [hfound])

/-- A call of `join` after the function has run. -/
theorem join_resolves_what_it_does_not_find_here :
    ∃ s : Joins Nat Nat, s.returned = [0] ∧ Ready s.config 0 := by
  have hrun : ∃ s, run (joinStep 0) ({ config := init Nat Nat 1 } : Joins Nat Nat)
      [.other (.push_back none 0 .non_resumable), .other (.worker 0 none),
        .other (.worker 0 none), .join, .other (.ret 0 7), .other (.worker 0 none),
        .other (.worker 0 none), .other (.worker 0 none), .joined] = some s ∧
        s.returned = [0] ∧ s.found = [] := ⟨_, rfl, rfl, rfl⟩
  obtain ⟨s, hs, hret, hfound⟩ := hrun
  have hr := reach_anyEvent hs
  have hall := (join_resolves_what_it_does_not_find 0 1 s hr).mpr (by simp [hfound])
  exact ⟨s, hret, hall 0 (by simp [hret])⟩

end ltl.task_queue
