-- The laws of await: when the awaited future is ready, who resumes the task,
-- and on which queue.
import Ltl.WorkerLoop

open ltl.future_state slots counts runs

namespace ltl.task_queue

variable {α χ : Type}

/-! ## Ready futures -/

def Ready (c : Config α χ) (f : FutureId) : Prop :=
  ∃ s, c.futures[f]? = some s ∧ ready s = true

theorem Ready.next {c : Config α χ} {e : Event α χ} {ch : Change α χ} (h : Move c e ch)
    {f : FutureId} (hr : Ready c f) : Ready (ch.apply c) f := by
  obtain ⟨s, hf, hs⟩ := hr
  obtain ⟨s', hf', -, hsame⟩ := h.future hf
  rw [hsame hs] at hf'
  exact ⟨s, hf', hs⟩

/-- A ready future has no continuations left. -/
def Drained (c : Config α χ) : Prop :=
  ∀ (f : FutureId) s, c.futures[f]? = some s → ready s = true → s.continuations_ = []

theorem init_drained (n : Nat) : Drained (init α χ n) := fun _ _ hf => nomatch hf

theorem move_drained {c : Config α χ} {e : Event α χ} {ch : Change α χ} (hd : Drained c)
    (h : Move c e ch) : Drained (ch.apply c) := by
  intro f s hf hs
  have away : ∀ {t : Future α χ} {ks : List Cont}, ready t = false →
      ready { t with continuations_ := ks } = true → ks = [] := by
    intro t ks hr hr'
    have hr' : ready t = true := hr'
    rw [hr] at hr'
    cases hr'
  rcases Slot.getElem?_apply hf with ⟨hf, -⟩ | ⟨old, hset⟩ | ⟨hadd, -⟩
  · exact hd f s hf hs
  · cases h with
    | registered hq hw hi hp hf hr =>
      cases hset
      exact away hr hs
    | other hf hr =>
      cases hset
      exact away hr hs
    | _ => cases hset <;> rfl
  · cases h with
    | push_back hq =>
      cases hadd
      rfl
    | made he =>
      cases hadd
      rfl
    | _ => cases hadd

/-- No promise is given a null exception. -/
def NonNull (_ : Config α χ) : Event α χ → Prop
  | .fulfil _ (.error none) => False
  | _ => True

/-- What has left the continuation list of a future, or goes on after it, has a ready future. -/
structure Prompt (c : Config α χ) : Prop where
  setter : ∀ (d : Nat) f cs, c.setters[d]? = some (f, cs) → Ready c f
  pushing : ∀ (i : ContextId) ctx f n, c.contexts[i]? = some ctx → ctx.pc = .push_front f n →
    Ready c f
  pushed : ∀ n q i f, .pushed n q ∈ c.log → .awaited n i f ∈ c.log → Ready c f
  got : ∀ (i : ContextId) ctx f, c.contexts[i]? = some ctx → ctx.pc = .get f → Ready c f

theorem init_prompt (n : Nat) : Prompt (init α χ n) where
  setter _ _ _ hd := nomatch hd
  pushing _ _ _ _ hi := nomatch hi
  pushed _ _ _ _ hx := nomatch hx
  got _ _ _ hi := nomatch hi

section
variable {c : Config α χ} {e : Event α χ} {ch : Change α χ}

/-- A future that is set in a step is ready after it. -/
theorem ready_of_set (h : Move c e ch) {f : FutureId} {s t : Future α χ}
    (hs : ch.futures = .set f s t) (ht : ready t = true) : Ready (ch.apply c) f := by
  have hf : c.futures[f]? = some s := by
    have := h.fits.futures
    rw [hs] at this
    exact this
  refine ⟨t, ?_, ht⟩
  show (ch.futures.apply c.futures)[f]? = some t
  rw [hs]
  exact List.getElem?_set_self (List.getElem?_eq_some_iff.mp hf).1

theorem setter_next (hp : Prompt c) (ho : NonNull c e) (h : Move c e ch) {d : Nat}
    {f : FutureId} {cs : List Cont} (hd : (ch.apply c).setters[d]? = some (f, cs)) :
    Ready (ch.apply c) f := by
  rcases Slot.getElem?_apply hd with ⟨hd, -⟩ | ⟨old, hset⟩ | ⟨hadd, -⟩
  · exact (hp.setter d f cs hd).next h
  · refine Ready.next h ?_
    cases h with
    | run_other hd' =>
      cases hset
      exact hp.setter _ _ _ hd'
    | run_push hd' hf ha hq =>
      cases hset
      exact hp.setter _ _ _ hd'
    | _ => cases hset
  · have hset : ∀ {s t}, ch.futures = .set f s t → ready t = true → Ready (ch.apply c) f :=
      ready_of_set h
    cases h with
    | plain_stored hq hw hf hr =>
      cases hadd
      exact hset rfl rfl
    | fiber_stored hq hw hi hp hfunc hf hr =>
      cases hadd
      exact hset rfl rfl
    | fulfilled hw hf hr ht =>
      cases hadd
      refine hset rfl ?_
      rcases ht with ⟨v, rfl, rfl⟩ | ⟨x, rfl, rfl⟩
      · rfl
      · cases x with
        | none => exact absurd ho id
        | some x =>
          unfold ready
          exact Bool.or_true _
    | _ => cases hadd

theorem pushing_next (hp : Prompt c) (h : Move c e ch) {i : ContextId} {ctx : TaskContext α}
    {f : FutureId} {n : AwaitId} (hi : (ch.apply c).contexts[i]? = some ctx)
    (hpc : ctx.pc = .push_front f n) : Ready (ch.apply c) f := by
  refine Ready.next h ?_
  rcases Slot.getElem?_apply hi with ⟨hi, -⟩ | ⟨old, hset⟩ | ⟨hadd, -⟩
  · exact hp.pushing i ctx f n hi hpc
  · cases h with
    | found_ready hq hw hi' hp' hf hr =>
      cases hset
      cases hpc
      exact ⟨_, hf, hr⟩
    | _ =>
      cases hset <;>
      cases hpc
  · cases h with
    | start_new hq hw hc hf =>
      cases hadd
      cases hpc
    | _ => cases hadd

/-- Whoever pushes the item of an await sees its future ready. -/
theorem ready_of_pushes (hp : Prompt c) {f : FutureId} {i : ContextId} {n : AwaitId}
    (h : Pushes c f i n) : Ready c f := by
  cases h with
  | itself hi hpc => exact hp.pushing _ _ _ _ hi hpc
  | setter hd => exact hp.setter _ _ _ hd

theorem pushed_ready_next (hp : Prompt c) (hc : Counted c) (hl : Linked c) (h : Move c e ch)
    {n : AwaitId} {q : QueueId} {i : ContextId} {f : FutureId}
    (hx : .pushed n q ∈ (ch.apply c).log) (ha : .awaited n i f ∈ (ch.apply c).log) :
    Ready (ch.apply c) f := by
  refine Ready.next h ?_
  have hold : .awaited n i f ∈ c.log ∨ n = c.awaits := by
    rcases h.of_mem_log ha with ha | hadd
    · exact Or.inl ha
    · refine Or.inr ?_
      cases h with
      | registered hq hw hi hpc hf hr =>
        cases hadd
        rfl
      | found_ready hq hw hi hpc hf hr =>
        cases hadd
        rfl
      | _ => cases hadd
  have hbegun : ∀ {j g}, .awaited n j g ∈ c.log → n ≠ c.awaits := by
    rintro j g hj rfl
    have := begun_of_entry hc hj
    rw [begun, if_neg (Nat.lt_irrefl _)] at this
    cases this
  -- the await of the entry is the one that the item was pushed for
  have hpush : ∀ {j g}, Pushes c g j n → Ready c f := by
    intro j g hj
    have hmem := hl.of_pushes hj
    rcases hold with ha | rfl
    · obtain ⟨-, rfl⟩ := entry_unique hc hmem ha
      exact ready_of_pushes hp hj
    · exact absurd rfl (hbegun hmem)
  rcases h.of_mem_log hx with hx | hadd
  · rcases hold with ha | rfl
    · exact hp.pushed n q i f hx ha
    · obtain ⟨j, g, hj, -⟩ := hl.pushed _ _ hx
      exact absurd rfl (hbegun hj)
  · cases h with
    | pushed hq hw hi hpc hf haq hq' =>
      cases hadd
      exact hpush (.itself hi hpc)
    | run_push hd hf haq hq =>
      cases hadd
      exact hpush (.setter hd)
    | _ => cases hadd

theorem got_next (hp : Prompt c) (hl : Linked c) (h : Move c e ch)
    {i : ContextId} {ctx : TaskContext α} {f : FutureId}
    (hi : (ch.apply c).contexts[i]? = some ctx) (hpc : ctx.pc = .get f) :
    Ready (ch.apply c) f := by
  refine Ready.next h ?_
  rcases Slot.getElem?_apply hi with ⟨hi, -⟩ | ⟨old, hset⟩ | ⟨hadd, -⟩
  · exact hp.got i ctx f hi hpc
  · cases h with
    | resume hq hw hcur hi' hown hp' =>
      cases hset
      cases hpc
      have hitem := hl.item _ _ _ _ hq (Or.inr hw)
      have ha := hl.waiting _ _ _ _ hi' (by rw [hp']; rfl)
      exact hp.pushed _ _ _ _ hitem.1 ha
    | _ =>
      cases hset <;>
      cases hpc
  · cases h with
    | start_new hq hw hcur hf =>
      cases hadd
      cases hpc
    | _ => cases hadd

theorem move_prompt (hp : Prompt c) (hc : Counted c) (hl : Linked c) (ho : NonNull c e)
    (h : Move c e ch) : Prompt (ch.apply c) where
  setter _ _ _ hd := setter_next hp ho h hd
  pushing _ _ _ _ hi hpc := pushing_next hp h hi hpc
  pushed _ _ _ _ hx ha := pushed_ready_next hp hc hl h hx ha
  got _ _ _ hi hpc := got_next hp hl h hi hpc

end

/-! ## The laws of await -/

/-- Tasks await only what is theirs, and no promise is given a null exception. -/
def Proper (c : Config α χ) (e : Event α χ) : Prop := OwnQueue c e ∧ NonNull c e

instance (c : Config α χ) (e : Event α χ) : Decidable (Proper c e) :=
  match e with
  | .fulfil _ (.error none) => isFalse (fun h => h.2)
  | .fulfil _ (.error (some _)) | .fulfil _ (.ok _) => isTrue ⟨trivial, trivial⟩
  | .await q f => decidable_of_iff (OwnQueue c (.await q f)) ⟨fun h => ⟨h, trivial⟩, fun h => h.1⟩
  | .worker _ _ | .wake _ | .ret _ _ | .throw_ _ _ | .push_back _ _ _
  | .push_back_and_forget _ _ | .join _ | .promise _ | .then_ | .unwrap _
  | .add_continuation _ | .run_next _ => isTrue ⟨trivial, trivial⟩

theorem reach_drained {n : Nat} {c : Config α χ} (h : Reach step OwnQueue (init α χ n) c) :
    Drained c := by
  refine h.invariant_on (fun _ hr => reach_good hr) (init_drained n) ?_
  intro c e c' hg hd _ hs
  obtain ⟨ch, hm, rfl⟩ := step_move hg hs
  exact move_drained hd hm

theorem reach_own {n : Nat} {c : Config α χ} (h : Reach step Proper (init α χ n) c) :
    Reach step OwnQueue (init α χ n) c := h.mono (fun _ _ hok => hok.1)

theorem reach_prompt {n : Nat} {c : Config α χ} (h : Reach step Proper (init α χ n) c) :
    Prompt c := by
  refine h.invariant_on (fun _ hr => reach_good (reach_own hr)) (init_prompt n) ?_
  intro c e c' hg hp hok hs
  obtain ⟨ch, hm, rfl⟩ := step_move hg hs
  exact move_prompt hp hg.counted hg.linked hok.2 hm

/-- What holds of the awaits of every task. -/
structure Handshake (c : Config α χ) : Prop where
  one_push : ∀ n, pushes c n ≤ 1
  one_resume : ∀ n, resumes c n ≤ 1
  after_yield : ∀ n, resumes c n ≤ yields c n
  ready : ∀ n q i f, .resumed n q ∈ c.log → .awaited n i f ∈ c.log → Ready c f
  no_block : ∀ (i : ContextId) ctx f, c.contexts[i]? = some ctx → ctx.pc = .get f → Ready c f
  in_await : ∀ (q : QueueId) tq i n, c.queues[q]? = some tq →
    tq.worker = .picked (.resume_task i n) → i ∉ tq.free_task_contexts_ ∧
      ∃ ctx f, c.contexts[i]? = some ctx ∧ ctx.task_queue_ = q ∧ ctx.pc = .suspended f n ∧
        .awaited n i f ∈ c.log
  no_fault : c.fault = none ∨ c.fault = some .terminated

/-- An await is resumed at most once, after its `yield`, when its future is ready. -/
theorem an_await_is_resumed_once_in_time (n : Nat) (c : Config α χ)
    (h : Reach step Proper (init α χ n) c) : Handshake c := by
  have hg := reach_good (reach_own h)
  have hp := reach_prompt h
  refine ⟨?_, ?_, ?_, ?_, hp.got, ?_, hg.fault⟩
  · intro k
    have h1 := pushing_count hg.counted k
    have h2 := begun_le k c.awaits
    omega
  · intro k
    have h1 := waiting_count hg.counted k
    have h2 := begun_le k c.awaits
    omega
  · intro k
    have h1 := waiting_count hg.counted k
    have h2 := yielding_count hg.counted k
    have h3 : yielding c k ≤ waiting c k := yielding_le_waiting c k
    omega
  · intro k q i f hr ha
    exact hp.pushed k q i f (hg.linked.resumed k q hr) ha
  · intro q tq i k hq hw
    obtain ⟨ctx, f, hi, hown, hpc, ha⟩ := item_waits hg.counted hg.linked hq (Or.inr hw)
    have hon : tq.worker.onStack = none := by rw [hw]; rfl
    have hs := suspended_of_awaits hg.sound hq hon hi hown hpc
    refine ⟨?_, ctx, f, hi, hown, hs, ha⟩
    rw [(hg.sound.queue q tq hq).mem_free (by rw [hw]; nofun) hi hown, hs]
    nofun

theorem an_await_is_resumed_once_in_time_here : ∃ c : Config Unit Unit,
    Reach step Proper (init Unit Unit 1) c ∧ resumes c 0 = 1 ∧ Handshake c := by
  have hrun : ∃ c, runOk step Proper (init Unit Unit 1) awaitsOnce = some c ∧
      resumes c 0 = 1 := ⟨_, rfl, rfl⟩
  obtain ⟨c, hrun, hres⟩ := hrun
  have hr := reach_of_runOk _ _ _ hrun
  exact ⟨c, hr, hres, an_await_is_resumed_once_in_time 1 c hr⟩

/-! ## Where the task is resumed -/

theorem cont_of_pos {k : Cont} {n : AwaitId} (h : k.of n ≠ 0) : ∃ i, k = .push_front i n := by
  cases k with
  | other => exact absurd rfl h
  | push_front i m =>
    by_cases hm : m = n
    · subst hm
      exact ⟨i, rfl⟩
    · exact absurd (if_neg hm) h

/-- The continuation of an await is at its future, until that is ready. -/
theorem registered_zero {c : Config α χ} (hc : Counted c) (hl : Linked c) (hd : Drained c)
    {n : AwaitId} {i : ContextId} {f : FutureId} (ha : .awaited n i f ∈ c.log)
    (hr : Ready c f) : registered c n = 0 := by
  refine (total_eq_zero_iff _ _).mpr (fun s hs => (total_eq_zero_iff _ _).mpr (fun k hk => ?_))
  refine Classical.byContradiction (fun hne => ?_)
  obtain ⟨j, rfl⟩ := cont_of_pos hne
  obtain ⟨g, hg⟩ := List.getElem?_of_mem hs
  obtain ⟨-, rfl⟩ := entry_unique hc ha (hl.registered g s j n hg hk)
  obtain ⟨t, ht, hready⟩ := hr
  rw [hg] at ht
  cases ht
  rw [hd _ s hg hready] at hk
  cases hk

/-- Every await brings its task back to its own queue, once. -/
structure Affinity (c : Config α χ) : Prop where
  one_push : ∀ n, pushes c n ≤ 1
  delivered : ∀ n i f, .awaited n i f ∈ c.log → Ready c f → pushing c n = 0 → taken c n = 0 →
    pushes c n = 1
  pushed_home : ∀ n q i f, .pushed n q ∈ c.log → .awaited n i f ∈ c.log → Owner c i q
  resumed_home : ∀ n q i f, .resumed n q ∈ c.log → .awaited n i f ∈ c.log → Owner c i q
  no_fault : c.fault = none ∨ c.fault = some .terminated

theorem a_task_comes_back_to_its_queue (n : Nat) (c : Config α χ)
    (h : Reach step OwnQueue (init α χ n) c) : Affinity c := by
  have hg := reach_good h
  have hpushed : ∀ k q i f, .pushed k q ∈ c.log → .awaited k i f ∈ c.log → Owner c i q := by
    intro k q i f hp ha
    obtain ⟨j, g, ha', ho⟩ := hg.linked.pushed k q hp
    obtain ⟨rfl, -⟩ := entry_unique hg.counted ha ha'
    exact ho
  refine ⟨?_, ?_, hpushed, ?_, hg.fault⟩
  · intro k
    have h1 := pushing_count hg.counted k
    have h2 := begun_le k c.awaits
    omega
  · intro k i f ha hr hp ht
    have h1 := pushing_count hg.counted k
    have h2 := begun_of_entry hg.counted ha
    have h3 := registered_zero hg.counted hg.linked (reach_drained h) ha hr
    omega
  · intro k q i f hr ha
    exact hpushed k q i f (hg.linked.resumed k q hr) ha

/-- A task awaits the future of a promise that was made outside of every task. -/
def awaitsOutsider : List (Event Unit Unit) :=
  [.promise none, .push_back none 0 .resumable, .worker 0 none, .worker 0 none, .worker 0 none,
    .await 0 0, .worker 0 none, .worker 0 none, .fulfil 0 (.ok ()), .run_next 0]

/-- Such a future has no queue to push the task on. -/
theorem an_outsider_brings_no_task_back :
    ¬ ∀ n (c : Config Unit Unit), Reach step anyEvent (init Unit Unit n) c → Affinity c := by
  intro hall
  have hrun : ∃ c, run step (init Unit Unit 1) awaitsOutsider = some c ∧
      c.fault = some .null_queue := ⟨_, rfl, rfl⟩
  obtain ⟨c, hrun, hfault⟩ := hrun
  have hr : Reach step anyEvent (init Unit Unit 1) c :=
    reach_anyEvent hrun
  rcases (hall 1 c hr).no_fault with hf | hf
  · rw [hfault] at hf
    cases hf
  · rw [hfault] at hf
    cases hf

theorem a_task_comes_back_to_its_queue_here : ∃ c : Config Unit Unit,
    Reach step OwnQueue (init Unit Unit 1) c ∧ .awaited 0 0 1 ∈ c.log ∧ Affinity c := by
  have hrun : ∃ c, runOk step OwnQueue (init Unit Unit 1) awaitsOnce = some c ∧
      .awaited 0 0 1 ∈ c.log := ⟨_, rfl, by decide⟩
  obtain ⟨c, hrun, hlog⟩ := hrun
  have hr := reach_of_runOk _ _ _ hrun
  exact ⟨c, hr, hlog, a_task_comes_back_to_its_queue 1 c hr⟩

end ltl.task_queue
