-- The queues that await only what is theirs: no step goes wrong, and all the
-- invariants hold in every configuration that is reached.
import Ltl.Links

open ltl.future_state slots counts runs

namespace ltl.task_queue

variable {α χ : Type}

/-! ## Where an await is -/

/-- The contexts that are about to push the resume item of await `k` themselves. -/
def pushing (c : Config α χ) (k : AwaitId) : Nat :=
  total (fun ctx : TaskContext α => ctx.pc.pushing k) c.contexts

/-- The contexts in await `k`, before their `yield`. -/
def yielding (c : Config α χ) (k : AwaitId) : Nat :=
  total (fun ctx : TaskContext α => ctx.pc.yielding k) c.contexts

/-- The contexts in await `k`, until they are resumed. -/
def waiting (c : Config α χ) (k : AwaitId) : Nat :=
  total (fun ctx : TaskContext α => ctx.pc.waiting k) c.contexts

/-- The continuations of await `k` that are registered at a future. -/
def registered (c : Config α χ) (k : AwaitId) : Nat :=
  total (fun s : Future α χ => total (Cont.of k) s.continuations_) c.futures

/-- Those that a setter has taken and not called yet. -/
def taken (c : Config α χ) (k : AwaitId) : Nat :=
  total (fun d : FutureId × List Cont => total (Cont.of k) d.2) c.setters

/-- The item that the worker has picked, if it is for await `k`. -/
def Worker.picks (k : AwaitId) : Worker α → Nat
  | .picked wi => wi.of k
  | _ => 0

/-- The resume items of await `k` in the queues and with the workers. -/
def queued (c : Config α χ) (k : AwaitId) : Nat :=
  total (fun tq : TaskQueue α => total (WorkItem.of k) tq.queue_ + tq.worker.picks k) c.queues

theorem yielding_le_waiting (c : Config α χ) (k : AwaitId) : yielding c k ≤ waiting c k := by
  refine total_mono (fun ctx => ?_) c.contexts
  cases ctx.pc with
  | suspended f n => exact Nat.zero_le _
  | _ => exact Nat.le_refl _

theorem queues_zero {W : Weights α χ} (hi : W.item = fun _ => 0) (hp : W.plain = fun _ _ => 0)
    (l : List (TaskQueue α)) : total W.queue l = 0 := by
  rw [total_eq_zero_iff]
  intro tq _
  unfold Weights.queue Weights.worker
  rw [hi, hp, total_zero]
  split <;> rfl

theorem conts_zero {W : Weights α χ} (h : W.cont = fun _ => 0) (c : Config α χ) :
    total W.future c.futures = 0 ∧ total W.setter c.setters = 0 := by
  constructor
  · rw [total_eq_zero_iff]
    intro s _
    unfold Weights.future
    rw [h, total_zero]
  · rw [total_eq_zero_iff]
    intro d _
    unfold Weights.setter
    rw [h, total_zero]

theorem weigh_entered (c : Config α χ) (k : AwaitId) :
    weigh (Weights.entered α χ k) c = total (Entry.awaits k) c.log := by
  have hc := conts_zero (W := Weights.entered α χ k) rfl c
  have hi : total (Weights.entered α χ k).context c.contexts = 0 := total_zero _
  unfold weigh
  rw [queues_zero rfl rfl, hi, hc.1, hc.2]
  exact Nat.zero_add _

theorem weigh_yielding (c : Config α χ) (k : AwaitId) :
    weigh (Weights.yielding α χ k) c = yielding c k + yields c k := by
  have hc := conts_zero (W := Weights.yielding α χ k) rfl c
  unfold weigh
  rw [queues_zero rfl rfl, hc.1, hc.2, Nat.zero_add]
  rfl

theorem weigh_waiting (c : Config α χ) (k : AwaitId) :
    weigh (Weights.waiting α χ k) c = waiting c k + resumes c k := by
  have hc := conts_zero (W := Weights.waiting α χ k) rfl c
  unfold weigh
  rw [queues_zero rfl rfl, hc.1, hc.2, Nat.zero_add]
  rfl

theorem weigh_pushing (c : Config α χ) (k : AwaitId) :
    weigh (Weights.pushing α χ k) c =
      pushing c k + registered c k + taken c k + pushes c k := by
  unfold weigh
  rw [queues_zero rfl rfl, Nat.zero_add]
  rfl

theorem weigh_resuming (c : Config α χ) (k : AwaitId) :
    weigh (Weights.resuming α χ k) c =
      queued c k + pushing c k + registered c k + taken c k + resumes c k := by
  have hq : total (Weights.resuming α χ k).queue c.queues = queued c k := by
    unfold queued
    congr 1
    funext tq
    unfold Weights.queue
    cases tq.worker <;> rfl
  unfold weigh
  rw [hq]
  rfl

/-- Await `k` was entered once, and its right, its item and its task are each in one place. -/
theorem pushing_count {c : Config α χ} (hc : Counted c) (k : AwaitId) :
    pushing c k + registered c k + taken c k + pushes c k = begun k c.awaits :=
  (weigh_pushing c k).symm.trans (hc.pushing k)

theorem waiting_count {c : Config α χ} (hc : Counted c) (k : AwaitId) :
    waiting c k + resumes c k = begun k c.awaits :=
  (weigh_waiting c k).symm.trans (hc.waiting k)

theorem yielding_count {c : Config α χ} (hc : Counted c) (k : AwaitId) :
    yielding c k + yields c k = begun k c.awaits :=
  (weigh_yielding c k).symm.trans (hc.yielding k)

theorem resuming_count {c : Config α χ} (hc : Counted c) (k : AwaitId) :
    queued c k + pushing c k + registered c k + taken c k + resumes c k ≤ begun k c.awaits :=
  Nat.le_trans (Nat.le_of_eq (weigh_resuming c k).symm) (hc.resuming k)

theorem begun_le (k awaits : Nat) : begun k awaits ≤ 1 := by
  unfold begun
  split <;> omega

/-- Two entries of the same await are the same. -/
theorem entry_unique {c : Config α χ} (hc : Counted c) {n : AwaitId} {i j : ContextId}
    {f g : FutureId} (hi : .awaited n i f ∈ c.log) (hj : .awaited n j g ∈ c.log) :
    i = j ∧ f = g := by
  have hle : total (Entry.awaits n) c.log ≤ 1 := by
    rw [← weigh_entered, hc.entered n]
    exact begun_le n c.awaits
  have hone : one n n = 1 := if_pos rfl
  have hpos : 0 < one n n := Nat.lt_of_lt_of_eq Nat.one_pos hone.symm
  have heq := eq_of_total_le_one (Entry.awaits n) c.log hle hi hj hpos hpos
  cases heq
  exact ⟨rfl, rfl⟩

/-- An await that was entered has begun. -/
theorem begun_of_entry {c : Config α χ} (hc : Counted c) {n : AwaitId} {i : ContextId}
    {f : FutureId} (h : .awaited n i f ∈ c.log) : begun n c.awaits = 1 := by
  have hle := le_total (Entry.awaits n) c.log _ h
  have hone : Entry.awaits n (.awaited n i f : Entry α χ) = 1 := if_pos rfl
  rw [← weigh_entered, hc.entered n, hone] at hle
  exact Nat.le_antisymm (begun_le n c.awaits) hle

theorem waiting_pos {pc : Pc α} {k : AwaitId} (h : 0 < pc.waiting k) :
    ∃ f, pc.awaits = some (f, k) := by
  have hone : ∀ {n}, 0 < one k n → n = k := by
    intro n hn
    unfold one at hn
    split at hn
    · assumption
    · exact absurd hn (Nat.lt_irrefl 0)
  cases pc with
  | push_front f n => exact ⟨f, by rw [← hone h]; rfl⟩
  | yield f n => exact ⟨f, by rw [← hone h]; rfl⟩
  | suspended f n => exact ⟨f, by rw [← hone h]; rfl⟩
  | _ => exact absurd h (Nat.lt_irrefl 0)

/-- The context of an await that was entered and not resumed is still in it. -/
theorem still_waiting {c : Config α χ} (hc : Counted c) (hl : Linked c) {n : AwaitId}
    {i : ContextId} {f : FutureId} (h : .awaited n i f ∈ c.log) (hr : resumes c n = 0) :
    ∃ ctx, c.contexts[i]? = some ctx ∧ ctx.pc.awaits = some (f, n) := by
  have hw := waiting_count hc n
  rw [hr, begun_of_entry hc h] at hw
  have hne : waiting c n ≠ 0 := by omega
  obtain ⟨j, ctx, hj, hpos⟩ := exists_of_total_ne_zero hne
  obtain ⟨g, hg⟩ := waiting_pos (Nat.pos_of_ne_zero hpos)
  obtain ⟨rfl, rfl⟩ := entry_unique hc h (hl.waiting j ctx g n hj hg)
  exact ⟨ctx, hj, hg⟩

/-- One resume item is not run yet. -/
theorem queued_pos {c : Config α χ} {q : QueueId} {tq : TaskQueue α} {i : ContextId}
    {n : AwaitId} (hq : c.queues[q]? = some tq) (h : tq.Holds (.resume_task i n)) :
    0 < queued c n := by
  have hle := le_total (fun tq : TaskQueue α => total (WorkItem.of n) tq.queue_ +
    tq.worker.picks n) c.queues tq (List.mem_of_getElem? hq)
  have hone : WorkItem.of n (.resume_task i n) = 1 := if_pos rfl
  refine Nat.lt_of_lt_of_le ?_ hle
  rcases h with h | h
  · have := le_total (WorkItem.of n) tq.queue_ _ h
    omega
  · have hpick : tq.worker.picks n = 1 := by
      rw [h]
      exact hone
    omega

/-- A resume item that is there belongs to a context of its queue, which is still in the await. -/
theorem item_waits {c : Config α χ} (hc : Counted c) (hl : Linked c) {q : QueueId}
    {tq : TaskQueue α} {i : ContextId} {n : AwaitId} (hq : c.queues[q]? = some tq)
    (h : tq.Holds (.resume_task i n)) : ∃ ctx f, c.contexts[i]? = some ctx ∧
      ctx.task_queue_ = q ∧ ctx.pc.awaits = some (f, n) ∧ .awaited n i f ∈ c.log := by
  obtain ⟨hpush, f, ha⟩ := hl.item q tq i n hq h
  have hr : resumes c n = 0 := by
    have h1 := resuming_count hc n
    have h2 := begun_le n c.awaits
    have h3 := queued_pos hq h
    omega
  obtain ⟨ctx, hi, hp⟩ := still_waiting hc hl ha hr
  obtain ⟨j, g, ha', ctx', hj, hown⟩ := hl.pushed n q hpush
  obtain ⟨rfl, rfl⟩ := entry_unique hc ha ha'
  rw [hi] at hj
  cases hj
  exact ⟨ctx, f, hi, hown, hp, ha⟩

/-- While the worker is not on the stack of a context, the context has yielded. -/
theorem suspended_of_awaits {c : Config α χ} (hs : Sound c) {q : QueueId} {tq : TaskQueue α}
    {i : ContextId} {ctx : TaskContext α} {f : FutureId} {n : AwaitId}
    (hq : c.queues[q]? = some tq) (hw : tq.worker.onStack = none) (hi : c.contexts[i]? = some ctx)
    (hown : ctx.task_queue_ = q) (hp : ctx.pc.awaits = some (f, n)) :
    ctx.pc = .suspended f n := by
  have hrun : ctx.pc.runs = false := by
    cases hr : ctx.pc.runs with
    | false => rfl
    | true =>
      obtain ⟨tq', hq', hon⟩ := hs.context i ctx hi hr
      rw [hown, hq] at hq'
      cases hq'
      rw [hw] at hon
      cases hon
  cases hpc : ctx.pc with
  | suspended g m =>
    rw [hpc] at hp
    cases hp
    rfl
  | push_front g m =>
    rw [hpc] at hrun
    cases hrun
  | yield g m =>
    rw [hpc] at hrun
    cases hrun
  | _ =>
    rw [hpc] at hp
    cases hp

/-! ## Who sets the promise of a submitted function -/

/-- The function has the promise `f`. -/
def keeps (f : FutureId) (p : Option FutureId) : Nat := if p = some f then 1 else 0

/-- `operator()` has not set the promise yet. -/
def Stage.unset : Stage α → Bool
  | .drain _ => false
  | _ => true

def Pc.unset : Pc α → Bool
  | .parked => false
  | .wrapped s => s.unset
  | .finished_ => false
  | .last_yield => false
  | _ => true

/-- What is still to set promise `f`: an item, or a function that has not come to its end. -/
def Weights.holding (α χ : Type) (f : FutureId) : Weights α χ where
  item
    | .task p _ => keeps f p
    | _ => 0
  plain p s := if s.unset then keeps f p else 0
  stack p pc := if pc.unset then keeps f p else 0

/-- The future of a submitted function is set once, by its function. -/
structure Held (c : Config α χ) : Prop where
  wrapped_lt : ∀ f ∈ c.wrapped, f < c.futures.length
  one : ∀ f, weigh (Weights.holding α χ f) c ≤ 1
  wrapped : ∀ f, 0 < weigh (Weights.holding α χ f) c → f ∈ c.wrapped
  fresh : ∀ (f : FutureId) s, 0 < weigh (Weights.holding α χ f) c → c.futures[f]? = some s →
    ready s = false

theorem keeps_self (f : FutureId) : keeps f (some f) = 1 := if_pos rfl

theorem keeps_some (f g : FutureId) : keeps f (some g) = if f = g then 1 else 0 := by
  unfold keeps
  by_cases h : f = g
  · subst h
    rw [if_pos rfl, if_pos rfl]
  · rw [if_neg h, if_neg]
    intro he
    cases he
    exact h rfl

/-- Only a submission brings a holder, of a new promise. -/
theorem holding_step {c : Config α χ} {e : Event α χ} {ch : Change α χ} (h : Move c e ch)
    (f : FutureId) :
    ch.come (Weights.holding α χ f) ≤ ch.gone (Weights.holding α χ f) ∨
      (ch.wrapped = .add f ∧
        ch.come (Weights.holding α χ f) ≤ ch.gone (Weights.holding α χ f) + 1) := by
  cases h
  all_goals simp only [Change.come, Change.gone, Slot.come, Slot.gone, Weights.queue_push_back,
    Weights.queue_push_front, Weights.queue_notify_one, Weights.queue_task_complete,
    Weights.queue_join, Nat.add_zero, *]
  all_goals try simp only [Weights.holding, Weights.queue, Weights.worker, Weights.context,
    Weights.future, Weights.setter, Stage.unset, Pc.unset, total_append, total_cons, total_nil,
    total_zero, keeps_some, if_true, Bool.false_eq_true, if_false, *]
  all_goals try (refine Or.inl ?_ ; omega)
  case push_back thread q policy tq hq =>
    by_cases hf : f = c.futures.length
    · subst hf
      rw [if_pos rfl]
      exact Or.inr ⟨rfl, Nat.le_refl _⟩
    · rw [if_neg hf]
      exact Or.inl (Nat.le_refl _)
  case forget q empty tq wi hq hwi =>
    rcases hwi with rfl | rfl <;> exact Or.inl (Nat.le_refl _)

/-- The function that sets its promise holds it no more. -/
theorem holding_stored {c : Config α χ} {e : Event α χ} {ch : Change α χ} (h : Move c e ch)
    {f : FutureId} {s s' : Future α χ} (hs : ch.futures = .set f s s') (hr : ready s = false)
    (hr' : ready s' = true) : f ∉ c.wrapped ∨
      ch.come (Weights.holding α χ f) + 1 ≤ ch.gone (Weights.holding α χ f) := by
  have hstays : ready s' ≠ ready s := by
    rw [hr, hr']
    exact fun h => Bool.noConfusion h
  cases h with
  | plain_stored hq hw hf hr =>
    cases hs
    refine Or.inr ?_
    simp only [Change.come, Change.gone, Slot.come, Slot.gone, Weights.holding, Weights.queue,
      Weights.worker, Weights.future, Weights.setter, Stage.unset, keeps_self, total_zero,
      if_true, Bool.false_eq_true, if_false, hw]
    omega
  | fiber_stored hq hw hi hp hfunc hf hr =>
    cases hs
    refine Or.inr ?_
    simp only [Change.come, Change.gone, Slot.come, Slot.gone, Weights.holding, Weights.context,
      Weights.future, Weights.setter, Stage.unset, Pc.unset, keeps_self, total_zero,
      if_true, Bool.false_eq_true, if_false, hp, hfunc]
    omega
  | fulfilled hw hf hr hs' =>
    cases hs
    exact Or.inl hw
  | registered hq hw hi hp hf hr =>
    cases hs
    exact absurd rfl hstays
  | other hf hr =>
    cases hs
    exact absurd rfl hstays
  | _ => cases hs

theorem Move.wrapped_add {c : Config α χ} {e : Event α χ} {ch : Change α χ} (h : Move c e ch)
    {f : FutureId} (hf : ch.wrapped = .add f) :
    f = c.futures.length ∧ ∃ a, ch.futures = .add { await_queue_ := a } := by
  cases h with
  | push_back hq =>
    cases hf
    exact ⟨rfl, _, rfl⟩
  | _ => cases hf

theorem Move.wrapped_set {c : Config α χ} {e : Event α χ} {ch : Change α χ} (h : Move c e ch) :
    ch.wrapped = .keep ∨ ∃ f, ch.wrapped = .add f := by
  cases h <;> first | exact Or.inl rfl | exact Or.inr ⟨_, rfl⟩

theorem Move.mem_wrapped {c : Config α χ} {e : Event α χ} {ch : Change α χ} (h : Move c e ch)
    {f : FutureId} : f ∈ (ch.apply c).wrapped ↔ f ∈ c.wrapped ∨ ch.wrapped = .add f := by
  show f ∈ ch.wrapped.apply c.wrapped ↔ _
  rcases h.wrapped_set with hw | ⟨g, hw⟩
  · rw [hw]
    exact ⟨Or.inl, fun h => h.elim id (fun h => nomatch h)⟩
  · rw [hw, Slot.apply_add, List.mem_append, List.mem_singleton]
    constructor
    · rintro (h | rfl)
      · exact Or.inl h
      · exact Or.inr rfl
    · rintro (h | h)
      · exact Or.inl h
      · cases h
        exact Or.inr rfl

/-- The function that is about to store its value holds its promise. -/
theorem holding_of_stores {c : Config α χ} {q : QueueId} {tq : TaskQueue α} {f : FutureId}
    (hq : c.queues[q]? = some tq) (hs : Stores c q tq (some f)) :
    0 < weigh (Weights.holding α χ f) c := by
  have hone : (0 : Nat) < keeps f (some f) := by
    rw [keeps_self]
    exact Nat.one_pos
  unfold weigh
  generalize hp : some f = p at hs
  cases hs with
  | plain hw =>
    subst hp
    have hle := le_total (Weights.holding α χ f).queue c.queues tq (List.mem_of_getElem? hq)
    have hin : keeps f (some f) ≤ (Weights.holding α χ f).queue tq := by
      unfold Weights.queue
      rw [hw]
      exact Nat.le_add_left _ _
    omega
  | fiber hw hi hpc =>
    rename_i i ctx v
    have hle := le_total (Weights.holding α χ f).context c.contexts ctx (List.mem_of_getElem? hi)
    have hin : keeps f (some f) ≤ (Weights.holding α χ f).context ctx := by
      unfold Weights.context
      rw [hpc, ← hp]
      exact Nat.le_refl _
    omega

theorem move_held {c : Config α χ} {e : Event α χ} {ch : Change α χ} (hd : Held c)
    (h : Move c e ch) : Held (ch.apply c) := by
  have hlen : c.futures.length ≤ (ch.apply c).futures.length := Slot.length_le _ _
  have hw := fun f => Change.weigh_apply (Weights.holding α χ f) h.fits
  -- before its submission a promise is held by nothing
  have hnew : ∀ f, ch.wrapped = .add f → weigh (Weights.holding α χ f) c = 0 := by
    intro f hf
    refine Nat.eq_zero_of_not_pos (fun hpos => ?_)
    have hlt := hd.wrapped_lt f (hd.wrapped f hpos)
    rw [(h.wrapped_add hf).1] at hlt
    exact Nat.lt_irrefl _ hlt
  refine ⟨?_, ?_, ?_, ?_⟩
  · intro f hf
    rcases h.mem_wrapped.mp hf with hf | hf
    · exact Nat.lt_of_lt_of_le (hd.wrapped_lt f hf) hlen
    · obtain ⟨rfl, a, ha⟩ := h.wrapped_add hf
      show _ < (ch.futures.apply c.futures).length
      rw [ha, Slot.apply_add, List.length_append]
      exact Nat.lt_succ_self _
  · intro f
    have hle := hd.one f
    have := hw f
    rcases holding_step h f with hc | ⟨hf, hc⟩
    · omega
    · have := hnew f hf
      omega
  · intro f hpos
    have := hw f
    rcases holding_step h f with hc | ⟨hf, hc⟩
    · exact h.mem_wrapped.mpr (Or.inl (hd.wrapped f (by omega)))
    · exact h.mem_wrapped.mpr (Or.inr hf)
  · intro f s hpos hs
    have hwf := hw f
    have hone := hd.one f
    rcases holding_step h f with hc | ⟨hf, hc⟩
    · have hpos' : 0 < weigh (Weights.holding α χ f) c := by omega
      rcases Slot.getElem?_apply hs with ⟨hs, -⟩ | ⟨old, hset⟩ | ⟨hadd, hlen⟩
      · exact hd.fresh f s hpos' hs
      · have hold : c.futures[f]? = some old := by
          have := h.fits.futures
          rw [hset] at this
          exact this
        cases hr : ready s with
        | false => rfl
        | true =>
          rcases holding_stored h hset (hd.fresh f old hpos' hold) hr with hn | hlt
          · exact absurd (hd.wrapped f hpos') hn
          · omega
      · have hlt := hd.wrapped_lt f (hd.wrapped f hpos')
        rw [hlen] at hlt
        exact absurd hlt (Nat.lt_irrefl _)
    · obtain ⟨rfl, a, ha⟩ := h.wrapped_add hf
      have hs : (ch.futures.apply c.futures)[c.futures.length]? = some s := hs
      rw [ha, Slot.apply_add, List.getElem?_concat_length] at hs
      cases hs
      rfl

theorem init_held (n : Nat) : Held (init α χ n) := by
  have h : ∀ f, weigh (Weights.holding α χ f) (init α χ n) = 0 := fun f => weigh_init _ n
  refine ⟨fun _ hf => (nomatch hf), ?_, ?_, fun _ _ _ hs => (nomatch hs)⟩
  · intro f
    rw [h f]
    exact Nat.zero_le 1
  · intro f hpos
    rw [h f] at hpos
    exact absurd hpos (Nat.lt_irrefl 0)

/-! ## No step goes wrong -/

/-- What holds in every configuration that is reached. -/
structure Good (c : Config α χ) : Prop where
  sound : Sound c
  counted : Counted c
  linked : Linked c
  held : Held c
  fault : c.fault = none ∨ c.fault = some .terminated

theorem init_good (n : Nat) : Good (init α χ n) :=
  ⟨init_sound n, init_counted n, init_linked n, init_held n, Or.inl rfl⟩

theorem current_of_picked {c : Config α χ} (hs : Sound c) {q : QueueId} {tq : TaskQueue α}
    {wi : WorkItem} (hq : c.queues[q]? = some tq) (hw : tq.worker = .picked wi) :
    tq.current = none := by
  rw [(hs.queue q tq hq).current_eq, hw]
  rfl

/-- A free context is parked while its worker is not on its stack. -/
theorem parked_of_free {c : Config α χ} (hs : Sound c) {q : QueueId} {tq : TaskQueue α}
    {i : ContextId} {ctx : TaskContext α} (hq : c.queues[q]? = some tq)
    (hon : tq.worker.onStack = none) (hl : tq.worker ≠ .left)
    (hf : i ∈ tq.free_task_contexts_) (hi : c.contexts[i]? = some ctx) :
    ctx.task_queue_ = q ∧ ctx.pc = .parked := by
  obtain ⟨x, hx, hown, hu⟩ := ((hs.queue q tq hq).free_iff hl i).mp hf
  rw [hi] at hx
  cases hx
  refine ⟨hown, ?_⟩
  cases hp : ctx.pc with
  | parked => rfl
  | last_yield =>
    obtain ⟨tq', hq', hw⟩ := hs.context i ctx hi (by rw [hp]; rfl)
    rw [hown, hq] at hq'
    cases hq'
    rw [hon] at hw
    cases hw
  | _ =>
    rw [hp] at hu
    cases hu

/-- Only what a task awaits can go wrong. -/
theorem astray_of_wrong {c c' : Config α χ} (hs : Sound c) (hd : Held c) (h : Wrong c c') :
    Astray c c' := by
  cases h with
  | start_in_context hq hw hc =>
    rw [current_of_picked hs hq hw] at hc
    cases hc
  | resume_in_context hq hw hc =>
    rw [current_of_picked hs hq hw] at hc
    cases hc
  | yield_outside hq hw hc =>
    rw [(hs.queue _ _ hq).current_eq, hw] at hc
    cases hc
  | start_busy hq hw hf hi hbad =>
    have hl := List.mem_of_getLast? hf
    obtain ⟨hown, hp⟩ := parked_of_free hs hq (by rw [hw]; rfl) (by rw [hw]; nofun) hl hi
    rcases hbad with hbad | hbad
    · exact absurd hown hbad
    · exact absurd hp hbad
  | already hq hst hf hr =>
    rw [hd.fresh _ _ (holding_of_stores hq hst) hf] at hr
    cases hr
  | astray h => exact h

theorem not_astray {c c' : Config α χ} (hg : Good c) : ¬ Astray c c' := by
  intro h
  cases h with
  | resume_other hq hw hbad =>
    obtain ⟨ctx, f, hi, hown, hp, -⟩ := item_waits hg.counted hg.linked hq (Or.inr hw)
    exact hbad ctx f hi hown
      (suspended_of_awaits hg.sound hq (by rw [hw]; rfl) hi hown hp)
  | fiber_null hq hw hi hp hf ha =>
    obtain ⟨q, -, s, hs, haq⟩ := hg.linked.affine _ _ _ (hg.linked.of_pushes (.itself hi hp))
    rw [hf] at hs
    cases hs
    rw [ha] at haq
    cases haq
  | setter_null hd hf ha =>
    obtain ⟨q, -, s, hs, haq⟩ := hg.linked.affine _ _ _ (hg.linked.of_pushes (.setter hd))
    rw [hf] at hs
    cases hs
    rw [ha] at haq
    cases haq

/-- Every step is a move. -/
theorem step_move {c c' : Config α χ} {e : Event α χ} (hg : Good c) (h : step c e = some c') :
    ∃ ch, Move c e ch ∧ c' = ch.apply c := by
  obtain ⟨-, hm | hw⟩ := step_does h
  · exact hm
  · exact absurd (astray_of_wrong hg.sound hg.held hw) (not_astray hg)

theorem move_fault {c : Config α χ} {e : Event α χ} {ch : Change α χ} (h : Move c e ch) :
    ch.fault = none ∨ ch.fault = some .terminated := by
  cases h <;> first | exact Or.inl rfl | exact Or.inr rfl

theorem step_good {c c' : Config α χ} {e : Event α χ} (hg : Good c) (ho : OwnQueue c e)
    (h : step c e = some c') : Good c' := by
  obtain ⟨ch, hm, rfl⟩ := step_move hg h
  refine ⟨move_sound hg.sound hm, move_counted hg.counted hm,
    move_linked hg.linked hg.sound ho hm, move_held hg.held hm, ?_⟩
  show ch.fault.or c.fault = none ∨ ch.fault.or c.fault = some .terminated
  rcases move_fault hm with hf | hf
  · rw [hf]
    exact hg.fault
  · rw [hf]
    exact Or.inr rfl

theorem reach_good {n : Nat} {c : Config α χ} (h : Reach step OwnQueue (init α χ n) c) :
    Good c :=
  h.invariant (init_good n) (fun _ _ _ hg ho hs => step_good hg ho hs)

end ltl.task_queue
