-- Suspended tasks and join: where the right to resume each suspended task is,
-- as long as join throws no resume item away.
import Ltl.Await

open ltl.future_state slots counts runs

namespace ltl.task_queue

variable {α χ : Type}

/-! ## What join throws away -/

def WorkItem.resumes : WorkItem → Bool
  | .resume_task _ _ => true
  | _ => false

/-- `join` finds no resume item in the queue that it clears. -/
def KeepsResumes (c : Config α χ) : Event α χ → Prop
  | .join q => ∀ tq, c.queues[q]? = some tq → tq.queue_.any WorkItem.resumes = false
  | _ => True

instance (c : Config α χ) (e : Event α χ) : Decidable (KeepsResumes c e) :=
  match e with
  | .join q =>
    match h : c.queues[q]? with
    | none => isTrue (fun tq hq => by rw [h] at hq; cases hq)
    | some tq =>
      if hok : tq.queue_.any WorkItem.resumes = false then
        isTrue (fun t ht => by rw [h] at ht; cases ht; exact hok)
      else isFalse (fun hall => hok (hall tq h))
  | .worker _ _ | .wake _ | .await _ _ | .ret _ _ | .throw_ _ _ | .push_back _ _ _
  | .push_back_and_forget _ _ | .promise _ | .then_ | .unwrap _ | .add_continuation _
  | .fulfil _ _ | .run_next _ => isTrue trivial

theorem of_eq_zero {wi : WorkItem} (h : wi.resumes = false) (k : AwaitId) : wi.of k = 0 := by
  cases wi with
  | resume_task i n => cases h
  | _ => rfl

theorem nothing_dropped {c : Config α χ} {e : Event α χ} (hk : KeepsResumes c e) (k : AwaitId) :
    dropped (Weights.resuming α χ k) c e = 0 := by
  unfold dropped
  split
  · split
    · rename_i q _ tq hq
      have hall := hk tq hq
      rw [List.any_eq_false] at hall
      rw [total_eq_zero_iff]
      intro wi hwi
      exact of_eq_zero (Bool.eq_false_iff.mpr (hall wi hwi)) k
    · rfl
  · rfl

/-- No right to resume a task is lost. -/
def Kept (c : Config α χ) : Prop :=
  ∀ k, queued c k + pushing c k + registered c k + taken c k + resumes c k = begun k c.awaits

theorem init_kept (n : Nat) : Kept (init α χ n) := by
  intro k
  rw [← weigh_resuming]
  exact weigh_init _ n

theorem move_kept {c : Config α χ} {e : Event α χ} {ch : Change α χ} (hk : Kept c)
    (ho : KeepsResumes c e) (h : Move c e ch) : Kept (ch.apply c) := by
  intro k
  have hn := (resuming_conserves k).next h
  rw [nothing_dropped ho k, weigh_resuming, weigh_resuming, hk k] at hn
  omega

/-- Proper events, and no `join` that throws a resume item away. -/
def Patient (c : Config α χ) (e : Event α χ) : Prop := Proper c e ∧ KeepsResumes c e

instance (c : Config α χ) (e : Event α χ) : Decidable (Patient c e) :=
  inferInstanceAs (Decidable (_ ∧ _))

theorem reach_proper {n : Nat} {c : Config α χ} (h : Reach step Patient (init α χ n) c) :
    Reach step Proper (init α χ n) c := h.mono (fun _ _ hok => hok.1)

theorem reach_kept {n : Nat} {c : Config α χ} (h : Reach step Patient (init α χ n) c) :
    Kept c := by
  refine h.invariant_on (fun _ hr => reach_good (reach_own (reach_proper hr))) (init_kept n) ?_
  intro c e c' hg hk hok hs
  obtain ⟨ch, hm, rfl⟩ := step_move hg hs
  exact move_kept hk hok.2 hm

/-! ## Where a suspended task is -/

/-- What is to resume the task of context `i`, in await `n` of future `f`: its continuation at the
future, which is not ready, or one that a setter has taken, or one item of its queue. -/
inductive Located (c : Config α χ) (i : ContextId) (q : QueueId) (f : FutureId) (n : AwaitId) :
    Prop where
  | registered {s : Future α χ} (hf : c.futures[f]? = some s) (hr : ready s = false)
      (hk : .push_front i n ∈ s.continuations_) (ht : taken c n = 0) (hq : queued c n = 0)
  | taken {d : Nat} {cs : List Cont} (hd : c.setters[d]? = some (f, cs))
      (hk : .push_front i n ∈ cs) (hr : registered c n = 0) (hq : queued c n = 0)
  | queued {tq : TaskQueue α} (hq : c.queues[q]? = some tq) (hk : tq.Holds (.resume_task i n))
      (hone : queued c n = 1) (hr : registered c n = 0) (ht : taken c n = 0)

/-- The worker of `q` is never to go on, although all that its tasks await is ready. -/
structure Stranded (c : Config α χ) (q : QueueId) (tq : TaskQueue α) : Prop where
  join : tq.join_ = true
  in_progress : 0 < tq.in_progress_count_
  at_top : tq.AtTop
  empty : tq.queue_ = []
  awaited_ready : ∀ (i : ContextId) ctx f n, c.contexts[i]? = some ctx → ctx.task_queue_ = q →
    ctx.pc = .suspended f n → Ready c f
  no_fulfiller : ∀ (d : Nat) f cs, c.setters[d]? = some (f, cs) → cs = []

theorem registered_at {c : Config α χ} (hc : Counted c) (hl : Linked c) {n : AwaitId}
    {i : ContextId} {f : FutureId} (ha : .awaited n i f ∈ c.log) (h : registered c n ≠ 0) :
    ∃ s, c.futures[f]? = some s ∧ .push_front i n ∈ s.continuations_ := by
  obtain ⟨g, s, hg, hs⟩ := exists_of_total_ne_zero h
  obtain ⟨_, k, hk, hne⟩ := exists_of_total_ne_zero hs
  have hk := List.mem_of_getElem? hk
  obtain ⟨j, rfl⟩ := cont_of_pos hne
  obtain ⟨rfl, rfl⟩ := entry_unique hc ha (hl.registered g s j n hg hk)
  exact ⟨s, hg, hk⟩

theorem taken_at {c : Config α χ} (hc : Counted c) (hl : Linked c) {n : AwaitId}
    {i : ContextId} {f : FutureId} (ha : .awaited n i f ∈ c.log) (h : taken c n ≠ 0) :
    ∃ (d : Nat) (cs : List Cont), c.setters[d]? = some (f, cs) ∧ .push_front i n ∈ cs := by
  obtain ⟨d, ⟨g, cs⟩, hd, hs⟩ := exists_of_total_ne_zero h
  obtain ⟨_, k, hk, hne⟩ := exists_of_total_ne_zero hs
  have hk := List.mem_of_getElem? hk
  obtain ⟨j, rfl⟩ := cont_of_pos hne
  obtain ⟨rfl, rfl⟩ := entry_unique hc ha (hl.taken d g cs j n hd hk)
  exact ⟨d, cs, hd, hk⟩

theorem item_of_pos {wi : WorkItem} {n : AwaitId} (h : wi.of n ≠ 0) :
    ∃ i, wi = .resume_task i n := by
  cases wi with
  | resume_task i m =>
    by_cases hm : m = n
    · subst hm
      exact ⟨i, rfl⟩
    · exact absurd (if_neg hm) h
  | _ => exact absurd rfl h

theorem queued_at {c : Config α χ} (hc : Counted c) (hl : Linked c) {n : AwaitId}
    {i : ContextId} {f : FutureId} {q : QueueId} (ha : .awaited n i f ∈ c.log) (ho : Owner c i q) (h : queued c n ≠ 0) :
    ∃ tq, c.queues[q]? = some tq ∧ tq.Holds (.resume_task i n) := by
  obtain ⟨q', tq, hq, hne⟩ := exists_of_total_ne_zero h
  have hholds : ∃ j, tq.Holds (.resume_task j n) := by
    by_cases hitems : total (WorkItem.of n) tq.queue_ = 0
    · have hpick : tq.worker.picks n ≠ 0 := by
        intro hz
        exact hne (by rw [hitems, hz])
      cases hw : tq.worker with
      | picked wi =>
        rw [hw] at hpick
        obtain ⟨j, rfl⟩ := item_of_pos hpick
        exact ⟨j, Or.inr hw⟩
      | _ =>
        rw [hw] at hpick
        exact absurd rfl hpick
    · obtain ⟨_, wi, hwi, hwo⟩ := exists_of_total_ne_zero hitems
      obtain ⟨j, rfl⟩ := item_of_pos hwo
      exact ⟨j, Or.inl (List.mem_of_getElem? hwi)⟩
  obtain ⟨j, hj⟩ := hholds
  obtain ⟨ctx, g, hi, hown, -, ha'⟩ := item_waits hc hl hq hj
  obtain ⟨rfl, rfl⟩ := entry_unique hc ha ha'
  have : q' = q := Owner.unique ⟨ctx, hi, hown⟩ ho
  subst this
  exact ⟨tq, hq, hj⟩

/-- A task that is not running and not finished is suspended. -/
theorem suspended_of_unfinished {ctx : TaskContext α} (hu : ctx.pc.unfinished = true)
    (hr : ctx.pc.runs = false) : ∃ f n, ctx.pc = .suspended f n := by
  cases hp : ctx.pc with
  | suspended f n => exact ⟨f, n, rfl⟩
  | parked =>
    rw [hp] at hu
    cases hu
  | _ =>
    rw [hp] at hr
    cases hr

/-- No other context is in the await of a suspended one. -/
theorem pushing_zero {c : Config α χ} (hc : Counted c) (hl : Linked c) {i : ContextId}
    {ctx : TaskContext α} {f : FutureId} {n : AwaitId} (hi : c.contexts[i]? = some ctx)
    (hp : ctx.pc = .suspended f n) : pushing c n = 0 := by
  have ha := hl.waiting i ctx f n hi (by rw [hp]; rfl)
  refine Classical.byContradiction (fun hne => ?_)
  obtain ⟨j, x, hj, hx⟩ := exists_of_total_ne_zero hne
  have hpc : ∃ g, x.pc = .push_front g n := by
    cases hxp : x.pc with
    | push_front g m =>
      rw [hxp] at hx
      by_cases hm : m = n
      · subst hm
        exact ⟨g, rfl⟩
      · exact absurd (if_neg hm) hx
    | _ =>
      rw [hxp] at hx
      exact absurd rfl hx
  obtain ⟨g, hg⟩ := hpc
  obtain ⟨rfl, rfl⟩ := entry_unique hc ha (hl.waiting j x g n hj (by rw [hg]; rfl))
  rw [hi] at hj
  cases hj
  rw [hp] at hg
  cases hg

theorem resumes_zero {c : Config α χ} (hc : Counted c) {i : ContextId} {ctx : TaskContext α}
    {f : FutureId} {n : AwaitId} (hi : c.contexts[i]? = some ctx)
    (hp : ctx.pc = .suspended f n) : resumes c n = 0 := by
  have hle := le_total (fun x : TaskContext α => x.pc.waiting n) c.contexts ctx
    (List.mem_of_getElem? hi)
  have hone : ctx.pc.waiting n = 1 := by
    rw [hp]
    exact if_pos rfl
  have h1 := waiting_count hc n
  have h2 := begun_le n c.awaits
  unfold waiting at h1
  omega

theorem located {c : Config α χ} (hg : Good c) (hd : Drained c) (hk : Kept c) {i : ContextId}
    {ctx : TaskContext α} {f : FutureId} {n : AwaitId} (hi : c.contexts[i]? = some ctx)
    (hp : ctx.pc = .suspended f n) : Located c i ctx.task_queue_ f n := by
  have hc := hg.counted
  have hl := hg.linked
  have ha := hl.waiting i ctx f n hi (by rw [hp]; rfl)
  have hsum := hk n
  rw [pushing_zero hc hl hi hp, resumes_zero hc hi hp, begun_of_entry hc ha] at hsum
  by_cases hreg : registered c n = 0
  · by_cases htak : taken c n = 0
    · obtain ⟨tq, hq, hh⟩ := queued_at hc hl ha ⟨ctx, hi, rfl⟩ (by omega)
      exact .queued hq hh (by omega) hreg htak
    · obtain ⟨d, cs, hd, hk⟩ := taken_at hc hl ha htak
      exact .taken hd hk hreg (by omega)
  · obtain ⟨s, hf, hk⟩ := registered_at hc hl ha hreg
    refine .registered hf ?_ hk (by omega) (by omega)
    refine Bool.eq_false_iff.mpr (fun hr => ?_)
    rw [hd f s hf hr] at hk
    cases hk

theorem not_stranded {c : Config α χ} (hg : Good c) (hd : Drained c) (hk : Kept c)
    {q : QueueId} {tq : TaskQueue α} (hq : c.queues[q]? = some tq) : ¬ Stranded c q tq := by
  intro hs
  have hok := hg.sound.queue q tq hq
  have hne : total (unfinished q) c.contexts ≠ 0 := by
    have h1 := hok.count_eq
    have h2 := hs.in_progress
    omega
  obtain ⟨i, ctx, hi, hu⟩ := exists_of_total_ne_zero hne
  have hboth : ctx.task_queue_ = q ∧ ctx.pc.unfinished = true := by
    refine Classical.byContradiction (fun h => ?_)
    exact hu (if_neg h)
  obtain ⟨hown, hun⟩ := hboth
  have hon : tq.worker.onStack = none := by
    rcases hs.at_top with ht | ht <;> rw [ht] <;> rfl
  have hruns : ctx.pc.runs = false := by
    refine Bool.eq_false_iff.mpr (fun hr => ?_)
    obtain ⟨tq', hq', hw⟩ := hg.sound.context i ctx hi hr
    rw [hown, hq] at hq'
    cases hq'
    rw [hon] at hw
    cases hw
  obtain ⟨f, n, hp⟩ := suspended_of_unfinished hun hruns
  cases located hg hd hk hi hp with
  | registered hf hr =>
    obtain ⟨s, hf', hr'⟩ := hs.awaited_ready i ctx f n hi hown hp
    rw [hf] at hf'
    cases hf'
    rw [hr] at hr'
    cases hr'
  | taken hd hk =>
    rw [hs.no_fulfiller _ _ _ hd] at hk
    cases hk
  | queued hq' hh =>
    rw [hown, hq] at hq'
    cases hq'
    rcases hh with hh | hh
    · rw [hs.empty] at hh
      cases hh
    · rcases hs.at_top with ht | ht <;> rw [ht] at hh <;> cases hh

/-- Each suspended task has what is to resume it, and no queue waits for ever. -/
def NoneStranded (c : Config α χ) : Prop :=
  (∀ (i : ContextId) ctx, c.contexts[i]? = some ctx → ctx.pc.unfinished = true →
    ctx.pc.runs = false →
    ∃ f n, ctx.pc = .suspended f n ∧ Located c i ctx.task_queue_ f n) ∧
  ∀ (q : QueueId) tq, c.queues[q]? = some tq → ¬ Stranded c q tq

/-- No task is stranded by a `join` that finds no resume item in the queue. -/
theorem no_task_is_stranded (n : Nat) (c : Config α χ)
    (h : Reach step Patient (init α χ n) c) : NoneStranded c := by
  have hr := reach_own (reach_proper h)
  have hg := reach_good hr
  have hd := reach_drained hr
  have hk := reach_kept h
  constructor
  · intro i ctx hi hu hruns
    obtain ⟨f, m, hp⟩ := suspended_of_unfinished hu hruns
    exact ⟨f, m, hp, located hg hd hk hi hp⟩
  · intro q tq hq
    exact not_stranded hg hd hk hq

/-- A `join` between the fulfilment and the worker. -/
def joinsTooSoon : List (Event Unit Unit) :=
  [.push_back none 0 .resumable, .worker 0 none, .worker 0 none, .worker 0 none,
    .promise (some 0), .await 0 1, .worker 0 none, .worker 0 none, .fulfil 1 (.ok ()),
    .run_next 0, .join 0]

/-- The `join` throws the resume item away, and waits for the task for ever. -/
theorem join_strands_a_task : ¬ ∀ n (c : Config Unit Unit),
    Reach step Proper (init Unit Unit n) c → NoneStranded c := by
  intro hall
  have hrun : ∃ c tq, runOk step Proper (init Unit Unit 1) joinsTooSoon = some c ∧
      c.queues[0]? = some tq ∧ tq.join_ = true ∧ tq.in_progress_count_ = 1 ∧
      tq.worker = .top ∧ tq.queue_ = [] ∧ c.setters = [(1, [])] ∧
      c.contexts = [⟨0, some 0, .suspended 1 0⟩] ∧
      ∃ s, c.futures[1]? = some s ∧ ready s = true :=
    ⟨_, _, rfl, rfl, rfl, rfl, rfl, rfl, rfl, rfl, _, rfl, rfl⟩
  obtain ⟨c, tq, hrun, hq, hj, hcount, hw, he, hset, hctx, hready⟩ := hrun
  refine (hall 1 c (reach_of_runOk _ _ _ hrun)).2 0 tq hq ⟨hj, ?_, Or.inl hw, he, ?_, ?_⟩
  · rw [hcount]
    decide
  · intro i ctx f n hi _ hp
    rw [hctx] at hi
    cases i with
    | zero =>
      cases hi
      cases hp
      exact hready
    | succ i => cases hi
  · intro d f cs hd
    rw [hset] at hd
    cases d with
    | zero =>
      cases hd
      rfl
    | succ d => cases hd

theorem no_task_is_stranded_here : ∃ c : Config Unit Unit,
    Reach step Patient (init Unit Unit 1) c ∧
      (c.queues[0]?.map (·.join_)) = some true ∧ queued c 0 = 1 ∧ NoneStranded c := by
  have hrun : ∃ c, runOk step Patient (init Unit Unit 1)
      [.push_back none 0 .resumable, .worker 0 none, .worker 0 none, .worker 0 none,
        .promise (some 0), .await 0 1, .worker 0 none, .worker 0 none, .join 0,
        .fulfil 1 (.ok ()), .run_next 0] = some c ∧
      (c.queues[0]?.map (·.join_)) = some true ∧ queued c 0 = 1 := ⟨_, rfl, rfl, rfl⟩
  obtain ⟨c, hrun, hj, hq⟩ := hrun
  have hr := reach_of_runOk _ _ _ hrun
  exact ⟨c, hr, hj, hq, no_task_is_stranded 1 c hr⟩

end ltl.task_queue
