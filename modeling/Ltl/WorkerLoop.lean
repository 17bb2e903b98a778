-- The loop of the worker: what the accounts of a queue say while its worker is
-- at the top of the loop, and how each context is handed its functions.
import Ltl.Scheduler

open ltl.future_state slots counts runs

namespace ltl.task_queue

variable {α χ : Type}

/-! ## The life of a context -/

/-- The context is about to run its function from the beginning. -/
def Pc.first : Pc α → Bool
  | .func_ => true
  | _ => false

/-- The context goes on with the function that it has begun. -/
structure GoesOn (ctx ctx' : TaskContext α) : Prop where
  func_ : ctx'.func_ = ctx.func_
  first : ctx'.pc.first = ctx.pc.first
  unfinished : ctx'.pc.unfinished = ctx.pc.unfinished

theorem GoesOn.pc {ctx : TaskContext α} {pc pc' : Pc α} (hp : ctx.pc = pc)
    (hf : pc'.first = pc.first) (hu : pc'.unfinished = pc.unfinished) :
    GoesOn ctx { ctx with pc := pc' } := by
  subst hp
  exact ⟨rfl, hf, hu⟩

/-- The entry is about the life of a context. -/
def Entry.ofLife : Entry α χ → Bool
  | .reset _ _ => true
  | .began _ _ => true
  | .finished _ => true
  | _ => false

/-- What a step does to the life of a context: it makes one with its first function, hands a free
one a new function, begins the function, comes to its end, or goes on. -/
inductive Life (c : Config α χ) (ch : Change α χ) : Prop where
  | new {q : QueueId} {p : Option FutureId} (hi : ch.contexts = .add ⟨q, p, .func_⟩)
      (hl : ch.log = .add (.reset c.contexts.length p))
  | handed {q : QueueId} {tq : TaskQueue α} {i : ContextId} {ctx : TaskContext α}
      {p : Option FutureId} (hq : c.queues[q]? = some tq) (hf : i ∈ tq.free_task_contexts_)
      (hc : c.contexts[i]? = some ctx) (hp : ctx.pc = .parked)
      (hi : ch.contexts = .set i ctx { ctx with func_ := p, pc := .func_ })
      (hl : ch.log = .add (.reset i p))
  | began {i : ContextId} {ctx : TaskContext α} (hc : c.contexts[i]? = some ctx)
      (hp : ctx.pc = .func_) (hi : ch.contexts = .set i ctx { ctx with pc := .wrapped .task_ })
      (hl : ch.log = .add (.began i ctx.func_))
  | finished {i : ContextId} {ctx : TaskContext α} (hc : c.contexts[i]? = some ctx)
      (hp : ctx.pc = .finished_) (hi : ch.contexts = .set i ctx { ctx with pc := .last_yield })
      (hl : ch.log = .add (.finished i))
  | quiet (hi : ch.contexts.Keeps GoesOn) (hl : ∀ x, ch.log = .add x → x.ofLife = false)

theorem silent_add {x : Entry α χ} (h : x.ofLife = false) (y : Entry α χ)
    (hy : Slot.add x = Slot.add y) : y.ofLife = false := by
  cases hy
  exact h

theorem Move.life {c : Config α χ} {e : Event α χ} {ch : Change α χ} (h : Move c e ch) :
    Life c ch := by
  cases h with
  | start_new hq hw hc hf => exact .new rfl rfl
  | start_free hq hw hc hf hi hown hp =>
    exact .handed hq (List.mem_of_getLast? hf) hi hp rfl rfl
  | resume hq hw hc hi hown hp => exact .quiet (GoesOn.pc hp rfl rfl) (silent_add rfl)
  | began hq hw hi hp => exact .began hi hp rfl rfl
  | fiber_ended hq hw hi hp he => exact .quiet (GoesOn.pc hp rfl rfl) nofun
  | fiber_stored hq hw hi hp hfunc hf hr => exact .quiet (GoesOn.pc hp rfl rfl) nofun
  | registered hq hw hi hp hf hr => exact .quiet (GoesOn.pc hp rfl rfl) (silent_add rfl)
  | found_ready hq hw hi hp hf hr => exact .quiet (GoesOn.pc hp rfl rfl) (silent_add rfl)
  | pushed hq hw hi hp hf ha hq' => exact .quiet (GoesOn.pc hp rfl rfl) (silent_add rfl)
  | yielded hq hw hi hp => exact .quiet (GoesOn.pc hp rfl rfl) (silent_add rfl)
  | got hq hw hi hp hf hr => exact .quiet (GoesOn.pc hp rfl rfl) nofun
  | completed hq hw hi hp => exact .finished hi hp rfl rfl
  | parked hq hw hi hp => exact .quiet (GoesOn.pc hp rfl rfl) nofun
  | await hq hw hi hp hf hr => exact .quiet (GoesOn.pc hp rfl rfl) nofun
  | ret_fiber hq hw hi hp => exact .quiet (GoesOn.pc hp rfl rfl) (silent_add rfl)
  | ret_plain hq hw => exact .quiet trivial (silent_add rfl)
  | threw hq hr => exact .quiet trivial (silent_add rfl)
  | built hq hs => exact .quiet trivial (silent_add rfl)
  | run_push hd hf ha hq => exact .quiet trivial (silent_add rfl)
  | _ => exact .quiet trivial nofun

namespace Entry

/-- Context `i` was handed the function `p`. -/
def resets (i : ContextId) (p : Option FutureId) : Entry α χ → Nat
  | .reset j p' => if j = i ∧ p' = p then 1 else 0
  | _ => 0

/-- Context `i` began to run the function `p`. -/
def begins (i : ContextId) (p : Option FutureId) : Entry α χ → Nat
  | .began j p' => if j = i ∧ p' = p then 1 else 0
  | _ => 0

/-- Context `i` was handed a function. -/
def starts (i : ContextId) : Entry α χ → Nat
  | .reset j _ => if j = i then 1 else 0
  | _ => 0

/-- Context `i` came to the end of its function. -/
def finishes (i : ContextId) : Entry α χ → Nat
  | .finished j => if j = i then 1 else 0
  | _ => 0

end Entry

/-- One while the context is about to run the function `p` from its beginning. -/
def atStart (p : Option FutureId) (ctx : TaskContext α) : Nat :=
  if ctx.pc.first = true ∧ ctx.func_ = p then 1 else 0

/-- One while the task of the context is unfinished. -/
def inTask (ctx : TaskContext α) : Nat := if ctx.pc.unfinished = true then 1 else 0

/-- What the log says of each context. -/
structure Lives (c : Config α χ) : Prop where
  handed : ∀ i p, total (Entry.resets i p) c.log =
    total (Entry.begins i p) c.log + Slot.here (atStart p) c.contexts i
  started : ∀ i, total (Entry.starts i) c.log =
    total (Entry.finishes i) c.log + Slot.here inTask c.contexts i

theorem init_lives (n : Nat) : Lives (init α χ n) := ⟨fun _ _ => rfl, fun _ => rfl⟩

theorem come_log (A : Entry α χ → Nat) {c : Config α χ} {e : Event α χ} {ch : Change α χ}
    (h : Move c e ch) : total A (ch.apply c).log = total A c.log + ch.log.come A := by
  show total A (ch.log.apply c.log) = _
  rcases h.log_grows with hl | ⟨x, hl⟩
  · rw [hl]
    rfl
  · rw [hl, Slot.apply_add, total_append, total_cons, total_nil]
    rfl

theorem come_silent {A : Entry α χ → Nat} (hA : ∀ x, Entry.ofLife x = false → A x = 0)
    {c : Config α χ} {e : Event α χ} {ch : Change α χ} (h : Move c e ch)
    (hl : ∀ x, ch.log = .add x → x.ofLife = false) : ch.log.come A = 0 := by
  rcases h.log_grows with hk | ⟨x, hx⟩
  · rw [hk]
    rfl
  · rw [hx]
    exact hA x (hl x hx)

theorem here_goes_on {w : TaskContext α → Nat} (hw : ∀ a b, GoesOn a b → w b = w a)
    {s : Slot (TaskContext α)} {l : List (TaskContext α)} (hs : s.Fits l) (hk : s.Keeps GoesOn)
    (i : ContextId) : Slot.here w (s.apply l) i = Slot.here w l i := by
  cases s with
  | keep => rfl
  | add new => exact absurd hk id
  | set j old new =>
    rw [Slot.apply_set, Slot.here_set w hs]
    split
    · rename_i hij
      subst hij
      rw [hw _ _ hk, Slot.here_eq w hs]
    · rfl

theorem not_life {x : Entry α χ} (h : x.ofLife = false) (i : ContextId)
    (p : Option FutureId) :
    x.resets i p = 0 ∧ x.begins i p = 0 ∧ x.starts i = 0 ∧ x.finishes i = 0 := by
  cases x <;> first | exact ⟨rfl, rfl, rfl, rfl⟩ | cases h

theorem atStart_goes_on (p : Option FutureId) (a b : TaskContext α) (h : GoesOn a b) :
    atStart p b = atStart p a := by
  unfold atStart
  rw [h.func_, h.first]

theorem inTask_goes_on (a b : TaskContext α) (h : GoesOn a b) : inTask b = inTask a := by
  unfold inTask
  rw [h.unfinished]

theorem handed_step {c : Config α χ} {e : Event α χ} {ch : Change α χ} (h : Move c e ch)
    (i : ContextId) (p : Option FutureId) :
    ch.log.come (Entry.resets i p) + Slot.here (atStart p) c.contexts i =
      ch.log.come (Entry.begins i p) + Slot.here (atStart p) (ch.apply c).contexts i := by
  show _ = _ + Slot.here (atStart p) (ch.contexts.apply c.contexts) i
  cases h.life with
  | new hi hl =>
    rw [hi, hl, Slot.apply_add, Slot.here_append]
    by_cases hij : i = c.contexts.length
    · subst hij
      rw [Slot.here_length]
      simp [Slot.come, Entry.resets, Entry.begins, atStart, Pc.first]
    · simp [Slot.come, Entry.resets, Entry.begins, hij, Ne.symm hij]
  | @handed q tq j ctx p' hq hf hc hp hi hl =>
    rw [hi, hl, Slot.apply_set, Slot.here_set _ hc]
    by_cases hij : i = j
    · subst hij
      rw [Slot.here_eq _ hc]
      simp [Slot.come, Entry.resets, Entry.begins, atStart, hp, Pc.first]
    · simp [Slot.come, Entry.resets, Entry.begins, hij, Ne.symm hij]
  | @began j ctx hc hp hi hl =>
    rw [hi, hl, Slot.apply_set, Slot.here_set _ hc]
    by_cases hij : i = j
    · subst hij
      rw [Slot.here_eq _ hc]
      simp [Slot.come, Entry.resets, Entry.begins, atStart, hp, Pc.first]
    · simp [Slot.come, Entry.resets, Entry.begins, hij, Ne.symm hij]
  | @finished j ctx hc hp hi hl =>
    rw [hi, hl, Slot.apply_set, Slot.here_set _ hc]
    by_cases hij : i = j
    · subst hij
      rw [Slot.here_eq _ hc]
      simp [Slot.come, Entry.resets, Entry.begins, atStart, hp, Pc.first]
    · simp [Slot.come, Entry.resets, Entry.begins, hij]
  | quiet hi hl =>
    rw [come_silent (fun x hx => (not_life hx i p).1) h hl,
      come_silent (fun x hx => (not_life hx i p).2.1) h hl,
      here_goes_on (atStart_goes_on p) h.fits.contexts hi]

theorem started_step {c : Config α χ} {e : Event α χ} {ch : Change α χ} (h : Move c e ch)
    (i : ContextId) :
    ch.log.come (Entry.starts i) + Slot.here inTask c.contexts i =
      ch.log.come (Entry.finishes i) + Slot.here inTask (ch.apply c).contexts i := by
  show _ = _ + Slot.here inTask (ch.contexts.apply c.contexts) i
  cases h.life with
  | new hi hl =>
    rw [hi, hl, Slot.apply_add, Slot.here_append]
    by_cases hij : i = c.contexts.length
    · subst hij
      rw [Slot.here_length]
      simp [Slot.come, Entry.starts, Entry.finishes, inTask, Pc.unfinished]
    · simp [Slot.come, Entry.starts, Entry.finishes, hij, Ne.symm hij]
  | @handed q tq j ctx p hq hf hc hp hi hl =>
    rw [hi, hl, Slot.apply_set, Slot.here_set _ hc]
    by_cases hij : i = j
    · subst hij
      rw [Slot.here_eq _ hc]
      simp [Slot.come, Entry.starts, Entry.finishes, inTask, hp, Pc.unfinished]
    · simp [Slot.come, Entry.starts, Entry.finishes, hij, Ne.symm hij]
  | @began j ctx hc hp hi hl =>
    rw [hi, hl, Slot.apply_set, Slot.here_set _ hc]
    by_cases hij : i = j
    · subst hij
      rw [Slot.here_eq _ hc]
      simp [Slot.come, Entry.starts, Entry.finishes, inTask, hp, Pc.unfinished]
    · simp [Slot.come, Entry.starts, Entry.finishes, hij]
  | @finished j ctx hc hp hi hl =>
    rw [hi, hl, Slot.apply_set, Slot.here_set _ hc]
    by_cases hij : i = j
    · subst hij
      rw [Slot.here_eq _ hc]
      simp [Slot.come, Entry.starts, Entry.finishes, inTask, hp, Pc.unfinished]
    · simp [Slot.come, Entry.starts, Entry.finishes, hij, Ne.symm hij]
  | quiet hi hl =>
    rw [come_silent (fun x hx => (not_life hx i none).2.2.1) h hl,
      come_silent (fun x hx => (not_life hx i none).2.2.2) h hl,
      here_goes_on inTask_goes_on h.fits.contexts hi]

theorem move_lives {c : Config α χ} {e : Event α χ} {ch : Change α χ} (hl : Lives c)
    (h : Move c e ch) : Lives (ch.apply c) := by
  constructor
  · intro i p
    rw [come_log _ h, come_log _ h, hl.handed i p]
    have := handed_step h i p
    omega
  · intro i
    rw [come_log _ h, come_log _ h, hl.started i]
    have := started_step h i
    omega

theorem reach_lives {n : Nat} {c : Config α χ} (h : Reach step OwnQueue (init α χ n) c) :
    Lives c := by
  refine h.invariant_on (fun _ hr => reach_good hr) (init_lives n) ?_
  intro c e c' hg hl _ hs
  obtain ⟨ch, hm, rfl⟩ := step_move hg hs
  exact move_lives hl hm

/-! ## The worker at the top of its loop -/

/-- The worker of `q` waits for the next item, or is about to pick it. -/
def TaskQueue.AtTop (tq : TaskQueue α) : Prop := tq.worker = .top ∨ tq.worker = .asleep

/-- The accounts of queue `q` while its worker is at the top of its loop. -/
structure Accounts (c : Config α χ) (q : QueueId) (tq : TaskQueue α) : Prop where
  current_null : tq.current = none
  count_eq : tq.in_progress_count_ = total (unfinished q) c.contexts
  count_nonneg : 0 ≤ tq.in_progress_count_
  free_nodup : tq.free_task_contexts_.Nodup
  free_iff : ∀ i, i ∈ tq.free_task_contexts_ ↔
    ∃ ctx, c.contexts[i]? = some ctx ∧ ctx.task_queue_ = q ∧ ctx.pc = .parked
  handed_is_begun : ∀ (i : ContextId) ctx p, c.contexts[i]? = some ctx → ctx.task_queue_ = q →
    total (Entry.resets i p) c.log = total (Entry.begins i p) c.log

theorem accounts_at_top {c : Config α χ} (hg : Good c) (hl : Lives c) {q : QueueId}
    {tq : TaskQueue α} (hq : c.queues[q]? = some tq) (ht : tq.AtTop) : Accounts c q tq := by
  have hok := hg.sound.queue q tq hq
  have hon : tq.worker.onStack = none := by
    rcases ht with ht | ht <;> rw [ht] <;> rfl
  have hleft : tq.worker ≠ .left := by
    rcases ht with ht | ht <;> rw [ht] <;> nofun
  have hruns : ∀ (i : ContextId) ctx, c.contexts[i]? = some ctx → ctx.task_queue_ = q →
      ctx.pc.runs = false := by
    intro i ctx hi hown
    refine Bool.eq_false_iff.mpr (fun hr => ?_)
    obtain ⟨tq', hq', hw⟩ := hg.sound.context i ctx hi hr
    rw [hown, hq] at hq'
    cases hq'
    rw [hon] at hw
    cases hw
  refine ⟨?_, hok.count_eq, ?_, hok.free_nodup, ?_, ?_⟩
  · rw [hok.current_eq, hon]
  · rw [hok.count_eq]
    exact Int.natCast_nonneg _
  · intro i
    constructor
    · intro hi
      obtain ⟨ctx, hctx, -, -⟩ := (hok.free_iff hleft i).mp hi
      obtain ⟨hown, hp⟩ := parked_of_free hg.sound hq hon hleft hi hctx
      exact ⟨ctx, hctx, hown, hp⟩
    · rintro ⟨ctx, hctx, hown, hp⟩
      exact (hok.free_iff hleft i).mpr ⟨ctx, hctx, hown, by rw [hp]; rfl⟩
  · intro i ctx p hi hown
    have hfirst : ctx.pc.first = false := by
      have hr := hruns i ctx hi hown
      cases hp : ctx.pc with
      | func_ =>
        rw [hp] at hr
        cases hr
      | _ => rfl
    rw [hl.handed i p, Slot.here_eq _ hi]
    unfold atStart
    rw [hfirst]
    rfl

/-- Context `i` may be handed a function: it is made for it, or it is free. -/
def MayHand (c : Config α χ) (i : ContextId) : Prop :=
  i = c.contexts.length ∨ ∃ (q : QueueId) (tq : TaskQueue α) (ctx : TaskContext α),
    c.queues[q]? = some tq ∧ i ∈ tq.free_task_contexts_ ∧ c.contexts[i]? = some ctx ∧
      ctx.pc = .parked

theorem may_hand {c c' : Config α χ} {e : Event α χ} (hg : Good c) (hs : step c e = some c')
    {i : ContextId} {p : Option FutureId} (hlog : c'.log = c.log ++ [.reset i p]) :
    MayHand c i := by
  obtain ⟨ch, h, rfl⟩ := step_move hg hs
  have hlog : ch.log.apply c.log = c.log ++ [.reset i p] := hlog
  have hadd : ch.log = .add (.reset i p) := by
    rcases h.log_grows with hl | ⟨x, hl⟩
    · rw [hl, Slot.apply_keep] at hlog
      have hlen := congrArg List.length hlog
      rw [List.length_append, List.length_singleton] at hlen
      omega
    · rw [hl, Slot.apply_add] at hlog
      rw [hl]
      cases List.append_cancel_left hlog
      rfl
  cases h.life with
  | new hi hl =>
    rw [hl] at hadd
    cases hadd
    exact Or.inl rfl
  | handed hq hf hc hp hi hl =>
    rw [hl] at hadd
    cases hadd
    exact Or.inr ⟨_, _, _, hq, hf, hc, hp⟩
  | began hc hp hi hl =>
    rw [hl] at hadd
    cases hadd
  | finished hc hp hi hl =>
    rw [hl] at hadd
    cases hadd
  | quiet hi hl =>
    cases hl _ hadd

/-- The accounts of every queue, in every configuration that queues reach whose tasks await only
what is theirs. -/
theorem the_worker_keeps_its_accounts (n : Nat) (c : Config α χ)
    (h : Reach step OwnQueue (init α χ n) c) :
    (∀ (q : QueueId) tq, c.queues[q]? = some tq → tq.AtTop → Accounts c q tq) ∧
      Lives c ∧
      (∀ e c' i p, step c e = some c' → c'.log = c.log ++ [.reset i p] → MayHand c i) ∧
      c.fault ≠ some .assertion ∧
      ∀ (q : QueueId) tq, c.queues[q]? = some tq → tq.worker = .left →
        tq.join_ = true ∧ total (unfinished q) c.contexts = 0 := by
  have hg := reach_good h
  have hl := reach_lives h
  refine ⟨?_, hl, ?_, ?_, ?_⟩
  · intro q tq hq ht
    exact accounts_at_top hg hl hq ht
  · intro e c' i p hs hlog
    exact may_hand hg hs hlog
  · rcases hg.fault with hf | hf <;> rw [hf] <;> nofun
  · intro q tq hq hw
    have hok := hg.sound.queue q tq hq
    obtain ⟨hj, hc⟩ := hok.left_ok hw
    refine ⟨hj, ?_⟩
    have := hok.count_eq
    omega

/-- A task that awaits a promise of its own, and is resumed when it is fulfilled. -/
def awaitsOnce : List (Event Unit Unit) :=
  [.push_back none 0 .resumable, .worker 0 none, .worker 0 none, .worker 0 none,
    .promise (some 0), .await 0 1, .worker 0 none, .worker 0 none, .fulfil 1 (.ok ()),
    .run_next 0, .worker 0 none, .worker 0 none, .worker 0 none, .ret 0 ()] ++
  List.replicate 4 (.worker 0 none)

/-- The task has come to its end, another one runs in its context, and the queue is joined. -/
theorem the_worker_keeps_its_accounts_here : ∃ c : Config Unit Unit,
    Reach step OwnQueue (init Unit Unit 1) c ∧ c.contexts.length = 1 ∧
      (c.queues[0]?.map (·.worker)) = some .left ∧
      ∀ (q : QueueId) tq, c.queues[q]? = some tq → tq.worker = .left →
        tq.join_ = true ∧ total (unfinished q) c.contexts = 0 := by
  have hrun : ∃ c, runOk step OwnQueue (init Unit Unit 1) (awaitsOnce ++
      [.push_back none 0 .resumable, .worker 0 none, .worker 0 none, .worker 0 none, .join 0,
        .ret 0 ()] ++ List.replicate 5 (.worker 0 none)) = some c ∧ c.contexts.length = 1 ∧
      (c.queues[0]?.map (·.worker)) = some .left := ⟨_, rfl, rfl, rfl⟩
  obtain ⟨c, hrun, hlen, hw⟩ := hrun
  have hr := reach_of_runOk _ _ _ hrun
  exact ⟨c, hr, hlen, hw, (the_worker_keeps_its_accounts 1 c hr).2.2.2.2⟩

end ltl.task_queue
