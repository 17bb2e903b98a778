-- The accounts of a task queue: the stack that its worker is on, the current
-- context, the count of unfinished tasks and the free contexts, kept through
-- every step.
import Ltl.TaskMoves

open ltl.future_state slots counts runs

namespace ltl.task_queue

variable {α χ : Type}

/-! ## The accounts -/

/-- The context is on the stack of its worker. -/
def Pc.runs : Pc α → Bool
  | .parked => false
  | .suspended _ _ => false
  | _ => true

/-- The task of the context was started and has not finished. -/
def Pc.unfinished : Pc α → Bool
  | .parked => false
  | .last_yield => false
  | _ => true

/-- One for a context of `q` with an unfinished task. -/
def unfinished (q : QueueId) (ctx : TaskContext α) : Nat :=
  if ctx.task_queue_ = q ∧ ctx.pc.unfinished = true then 1 else 0

/-- The context that the worker is on the stack of. -/
def Worker.onStack : Worker α → Option ContextId
  | .fiber i => some i
  | _ => none

/-- Context `i` belongs to `q`, and its last task has finished. -/
def Finished (contexts : List (TaskContext α)) (q : QueueId) (i : ContextId) : Prop :=
  ∃ ctx, contexts[i]? = some ctx ∧ ctx.task_queue_ = q ∧ ctx.pc.unfinished = false

/-- What holds of queue `q` at every moment. -/
structure QueueOk (contexts : List (TaskContext α)) (q : QueueId) (tq : TaskQueue α) :
    Prop where
  current_eq : tq.current = tq.worker.onStack
  on_stack : ∀ i, tq.worker.onStack = some i →
    ∃ ctx, contexts[i]? = some ctx ∧ ctx.task_queue_ = q ∧ ctx.pc.runs = true
  count_eq : tq.in_progress_count_ = total (unfinished q) contexts
  free_nodup : tq.free_task_contexts_.Nodup
  free_iff : tq.worker ≠ .left → ∀ i, i ∈ tq.free_task_contexts_ ↔ Finished contexts q i
  left_ok : tq.worker = .left → tq.join_ = true ∧ tq.in_progress_count_ = 0

/-- A context that runs is the one that the worker of its queue is on. -/
def ContextOk (queues : List (TaskQueue α)) (i : ContextId) (ctx : TaskContext α) : Prop :=
  ctx.pc.runs = true →
    ∃ tq, queues[ctx.task_queue_]? = some tq ∧ tq.worker.onStack = some i

structure Sound (c : Config α χ) : Prop where
  queue : ∀ q tq, c.queues[q]? = some tq → QueueOk c.contexts q tq
  context : ∀ i ctx, c.contexts[i]? = some ctx → ContextOk c.queues i ctx

theorem init_sound (n : Nat) : Sound (init α χ n) := by
  constructor
  · intro q tq h
    have h := List.eq_of_mem_replicate (List.mem_of_getElem? h)
    subst h
    refine ⟨rfl, ?_, rfl, List.nodup_nil, ?_, ?_⟩
    · intro i hi
      cases hi
    · intro _ i
      constructor
      · intro hi
        cases hi
      · rintro ⟨ctx, hctx, -⟩
        cases hctx
    · intro hl
      cases hl
  · intro i ctx h
    cases h

/-! ## Steps that leave the accounts alone -/

/-- The accounts of the queue are as they were. -/
structure Same (tq tq' : TaskQueue α) : Prop where
  stack : tq'.worker.onStack = tq.worker.onStack
  left : tq'.worker = .left → tq.worker = .left
  stays : tq.worker = .left → tq'.worker = .left
  current : tq'.current = tq.current
  count : tq'.in_progress_count_ = tq.in_progress_count_
  free : tq'.free_task_contexts_ = tq.free_task_contexts_
  join : tq.join_ = true → tq'.join_ = true

theorem Same.refl (tq : TaskQueue α) : Same tq tq :=
  ⟨rfl, id, id, rfl, rfl, rfl, id⟩

/-- The context goes on with its task, on the stack or off it as before. -/
structure Alike (ctx ctx' : TaskContext α) : Prop where
  queue : ctx'.task_queue_ = ctx.task_queue_
  runs : ctx'.pc.runs = ctx.pc.runs
  unfinished : ctx'.pc.unfinished = ctx.pc.unfinished

theorem Alike.refl (ctx : TaskContext α) : Alike ctx ctx := ⟨rfl, rfl, rfl⟩

theorem Same.notify_one (tq : TaskQueue α) : Same tq tq.notify_one := by
  unfold TaskQueue.notify_one
  split
  · rename_i hw
    refine ⟨?_, ?_, ?_, rfl, rfl, rfl, id⟩ <;> simp [hw, Worker.onStack]
  · exact Same.refl tq

theorem Same.trans {tq tq' tq'' : TaskQueue α} (h : Same tq tq') (h' : Same tq' tq'') :
    Same tq tq'' :=
  ⟨h'.stack.trans h.stack, fun hl => h.left (h'.left hl), fun hl => h'.stays (h.stays hl),
    h'.current.trans h.current, h'.count.trans h.count, h'.free.trans h.free,
    fun hj => h'.join (h.join hj)⟩

theorem Same.queue_ (tq : TaskQueue α) (wis : List WorkItem) :
    Same tq { tq with queue_ := wis } :=
  ⟨rfl, id, id, rfl, rfl, rfl, id⟩

theorem Same.push_back (tq : TaskQueue α) (wi : WorkItem) : Same tq (tq.push_back wi) := by
  unfold TaskQueue.push_back
  dsimp only
  split
  · exact (Same.queue_ tq _).trans (Same.notify_one _)
  · exact Same.queue_ tq _

theorem Same.push_front (tq : TaskQueue α) (wi : WorkItem) : Same tq (tq.push_front wi) := by
  unfold TaskQueue.push_front
  dsimp only
  split
  · exact (Same.queue_ tq _).trans (Same.notify_one _)
  · exact Same.queue_ tq _

theorem Same.joined (tq : TaskQueue α) : Same tq tq.join := by
  have h : Same tq { tq with queue_ := [], join_ := true } :=
    ⟨rfl, id, id, rfl, rfl, rfl, fun _ => rfl⟩
  unfold TaskQueue.join
  exact h.trans (Same.notify_one _)

/-- The worker goes on outside of every context. -/
theorem Same.worker {tq : TaskQueue α} {w w' : Worker α} (hw : tq.worker = w)
    (hon : w'.onStack = w.onStack) (hl : w ≠ .left) (hl' : w' ≠ .left) :
    Same tq { tq with worker := w' } := by
  subst hw
  exact ⟨hon, fun h => absurd h hl', fun h => absurd h hl, rfl, rfl, rfl, id⟩

theorem Alike.pc {ctx : TaskContext α} {pc pc' : Pc α} (hp : ctx.pc = pc)
    (hr : pc'.runs = pc.runs) (hu : pc'.unfinished = pc.unfinished) :
    Alike ctx { ctx with pc := pc' } := by
  subst hp
  exact ⟨rfl, hr, hu⟩

theorem alike_total {s : Slot (TaskContext α)} {l : List (TaskContext α)} (hs : s.Fits l)
    (hk : s.Keeps Alike) (q : QueueId) :
    total (unfinished q) (s.apply l) = total (unfinished q) l := by
  refine Slot.total_keeps (unfinished q) hs ?_
  cases s with
  | keep => trivial
  | add new => exact hk
  | set i old new =>
    obtain ⟨hq, -, hu⟩ := hk
    show unfinished q new = unfinished q old
    unfold unfinished
    rw [hq, hu]

theorem sound_of_quiet {c : Config α χ} {ch : Change α χ} (hs : Sound c) (hf : ch.Fits c)
    (hq : ch.queues.Keeps Same) (hi : ch.contexts.Keeps Alike) : Sound (ch.apply c) := by
  constructor
  · intro q tq' h
    obtain ⟨tq, htq, hsame⟩ := Slot.getElem?_keeps Same.refl hq hf.queues h
    have hok := hs.queue q tq htq
    refine ⟨?_, ?_, ?_, ?_, ?_, ?_⟩
    · rw [hsame.current, hsame.stack]
      exact hok.current_eq
    · intro i hw
      obtain ⟨ctx, hctx, hown, hr⟩ := hok.on_stack i (hsame.stack ▸ hw)
      obtain ⟨ctx', hctx', ha⟩ := Slot.keeps_getElem? Alike.refl hi hf.contexts hctx
      exact ⟨ctx', hctx', ha.queue.trans hown, ha.runs.trans hr⟩
    · rw [hsame.count, hok.count_eq]
      exact congrArg _ (alike_total hf.contexts hi q).symm
    · rw [hsame.free]
      exact hok.free_nodup
    · intro hl i
      rw [hsame.free, hok.free_iff (fun he => hl (hsame.stays he)) i]
      constructor
      · rintro ⟨ctx, hctx, hown, hu⟩
        obtain ⟨ctx', hctx', ha⟩ := Slot.keeps_getElem? Alike.refl hi hf.contexts hctx
        exact ⟨ctx', hctx', ha.queue.trans hown, ha.unfinished.trans hu⟩
      · rintro ⟨ctx', hctx', hown, hu⟩
        obtain ⟨ctx, hctx, ha⟩ := Slot.getElem?_keeps Alike.refl hi hf.contexts hctx'
        exact ⟨ctx, hctx, ha.queue.symm.trans hown, ha.unfinished.symm.trans hu⟩
    · intro hl
      obtain ⟨hj, hc⟩ := hok.left_ok (hsame.left hl)
      exact ⟨hsame.join hj, hsame.count.trans hc⟩
  · intro i ctx' h hr
    obtain ⟨ctx, hctx, ha⟩ := Slot.getElem?_keeps Alike.refl hi hf.contexts h
    obtain ⟨tq, htq, hw⟩ := hs.context i ctx hctx (ha.runs.symm.trans hr)
    obtain ⟨tq', htq', hsame⟩ := Slot.keeps_getElem? Same.refl hq hf.queues htq
    exact ⟨tq', ha.queue.symm ▸ htq', hsame.stack.trans hw⟩

/-! ## Steps of one context and its queue -/

/-- The change is at context `i` of queue `q`, if it is anywhere. -/
structure Only (q : QueueId) (i : ContextId) (l l' : List (TaskContext α)) : Prop where
  others : ∀ j, j ≠ i → l'[j]? = l[j]?
  old : ∀ ctx, l[i]? = some ctx → ctx.task_queue_ = q
  new : ∀ ctx, l'[i]? = some ctx → ctx.task_queue_ = q
  rest : ∀ q', q' ≠ q → total (unfinished q') l' = total (unfinished q') l

theorem unfinished_other {q q' : QueueId} {ctx : TaskContext α} (h : ctx.task_queue_ = q)
    (hne : q' ≠ q) : unfinished q' ctx = 0 := by
  unfold unfinished
  rw [if_neg]
  rintro ⟨h', -⟩
  exact hne (h'.symm.trans h)

theorem unfinished_own {q : QueueId} {ctx : TaskContext α} (h : ctx.task_queue_ = q) :
    unfinished q ctx = if ctx.pc.unfinished = true then 1 else 0 := by
  unfold unfinished
  simp only [h, true_and]

theorem Only.keep (q : QueueId) (l : List (TaskContext α)) : Only q l.length l l := by
  have hnone : l[l.length]? = none := List.getElem?_eq_none (Nat.le_refl _)
  refine ⟨fun _ _ => rfl, ?_, ?_, fun _ _ => rfl⟩ <;>
  · intro ctx h
    rw [hnone] at h
    cases h

theorem Only.set {q : QueueId} {i : ContextId} {l : List (TaskContext α)}
    {ctx ctx' : TaskContext α} (hi : l[i]? = some ctx) (hown : ctx.task_queue_ = q)
    (hown' : ctx'.task_queue_ = q) : Only q i l (l.set i ctx') := by
  refine ⟨?_, ?_, ?_, ?_⟩
  · intro j hj
    exact List.getElem?_set_ne (Ne.symm hj)
  · intro x hx
    rw [hi] at hx
    cases hx
    exact hown
  · intro x hx
    rw [List.getElem?_set_self (List.getElem?_eq_some_iff.mp hi).1] at hx
    cases hx
    exact hown'
  · intro q' hne
    have h := total_set (unfinished q') l i ctx ctx' hi
    rw [unfinished_other hown hne, unfinished_other hown' hne] at h
    exact h

theorem Only.add {q : QueueId} {l : List (TaskContext α)} {ctx' : TaskContext α}
    (hown' : ctx'.task_queue_ = q) : Only q l.length l (l ++ [ctx']) := by
  refine ⟨?_, (Only.keep q l).old, ?_, ?_⟩
  · intro j hj
    by_cases hlt : j < l.length
    · rw [List.getElem?_append_left hlt]
    · have hgt : l.length < j := Nat.lt_of_le_of_ne (Nat.le_of_not_lt hlt) (Ne.symm hj)
      rw [List.getElem?_eq_none (Nat.le_of_lt hgt), List.getElem?_eq_none]
      rw [List.length_append]
      exact hgt
  · intro x hx
    rw [List.getElem?_append_right (Nat.le_refl _), Nat.sub_self] at hx
    cases hx
    exact hown'
  · intro q' hne
    rw [total_append, total_cons, total_nil, unfinished_other hown' hne]
    rfl

/-- The other queues and contexts are as they were. -/
theorem sound_of_own {c : Config α χ} {ch : Change α χ} {q : QueueId} {tq tq' : TaskQueue α}
    {i : ContextId} (hs : Sound c) (hq : ch.queues = .set q tq tq') (htq : c.queues[q]? = some tq)
    (hon : ∀ j, tq.worker.onStack = some j → j = i)
    (ho : Only q i c.contexts (ch.contexts.apply c.contexts))
    (hrun : ∀ ctx, (ch.contexts.apply c.contexts)[i]? = some ctx → ctx.pc.runs = true →
      tq'.worker.onStack = some i)
    (hok : QueueOk (ch.contexts.apply c.contexts) q tq') : Sound (ch.apply c) := by
  have hqs : (ch.apply c).queues = c.queues.set q tq' := by
    show ch.queues.apply c.queues = _
    rw [hq]
    rfl
  constructor
  · intro p tp hp
    rw [hqs] at hp
    by_cases hpq : p = q
    · subst hpq
      rw [List.getElem?_set_self (List.getElem?_eq_some_iff.mp htq).1] at hp
      cases hp
      exact hok
    · rw [List.getElem?_set_ne (Ne.symm hpq)] at hp
      have h := hs.queue p tp hp
      have hsame : ∀ j : Nat, (∃ ctx : TaskContext α, (ch.contexts.apply c.contexts)[j]? = some ctx ∧
          ctx.task_queue_ = p) ∨ (∃ ctx : TaskContext α, c.contexts[j]? = some ctx ∧ ctx.task_queue_ = p) →
          (ch.contexts.apply c.contexts)[j]? = c.contexts[j]? := by
        intro j hj
        refine ho.others j (fun hji => ?_)
        subst hji
        rcases hj with ⟨ctx, hctx, hown⟩ | ⟨ctx, hctx, hown⟩
        · exact hpq (hown.symm.trans (ho.new ctx hctx))
        · exact hpq (hown.symm.trans (ho.old ctx hctx))
      refine ⟨h.current_eq, ?_, ?_, h.free_nodup, ?_, h.left_ok⟩
      · intro j hj
        obtain ⟨ctx, hctx, hown, hr⟩ := h.on_stack j hj
        exact ⟨ctx, (hsame j (Or.inr ⟨ctx, hctx, hown⟩)).trans hctx, hown, hr⟩
      · rw [h.count_eq]
        exact congrArg _ (ho.rest p hpq).symm
      · intro hl j
        rw [h.free_iff hl j]
        constructor
        · rintro ⟨ctx, hctx, hown, hu⟩
          exact ⟨ctx, (hsame j (Or.inr ⟨ctx, hctx, hown⟩)).trans hctx, hown, hu⟩
        · rintro ⟨ctx, hctx, hown, hu⟩
          exact ⟨ctx, (hsame j (Or.inl ⟨ctx, hctx, hown⟩)).symm.trans hctx, hown, hu⟩
  · intro j ctx hctx hr
    rw [hqs]
    by_cases hji : j = i
    · subst hji
      refine ⟨tq', ?_, hrun ctx hctx hr⟩
      rw [ho.new ctx hctx, List.getElem?_set_self (List.getElem?_eq_some_iff.mp htq).1]
    · obtain ⟨tp, htp, hw⟩ := hs.context j ctx ((ho.others j hji).symm.trans hctx) hr
      refine ⟨tp, ?_, hw⟩
      rw [List.getElem?_set_ne]
      · exact htp
      · intro he
        rw [← he, htq] at htp
        cases htp
        exact hji (hon j hw)

theorem finished_set {q : QueueId} {i j : ContextId} {l : List (TaskContext α)}
    {ctx ctx' : TaskContext α} (hi : l[i]? = some ctx) (hown' : ctx'.task_queue_ = q) :
    Finished (l.set i ctx') q j ↔
      (j = i ∧ ctx'.pc.unfinished = false) ∨ (j ≠ i ∧ Finished l q j) := by
  unfold Finished
  by_cases hji : j = i
  · subst hji
    rw [List.getElem?_set_self (List.getElem?_eq_some_iff.mp hi).1]
    constructor
    · rintro ⟨x, hx, -, hu⟩
      cases hx
      exact Or.inl ⟨rfl, hu⟩
    · rintro (⟨-, hu⟩ | ⟨hne, -⟩)
      · exact ⟨ctx', rfl, hown', hu⟩
      · exact absurd rfl hne
  · rw [List.getElem?_set_ne (Ne.symm hji)]
    constructor
    · intro h
      exact Or.inr ⟨hji, h⟩
    · rintro (⟨he, -⟩ | ⟨-, h⟩)
      · exact absurd he hji
      · exact h

/-- The queue of a context that goes from `ctx` to `ctx'`. -/
theorem queueOk_of_set {q : QueueId} {tq tq' : TaskQueue α} {i : ContextId}
    {l : List (TaskContext α)} {ctx ctx' : TaskContext α} (hok : QueueOk l q tq)
    (hi : l[i]? = some ctx) (hown : ctx.task_queue_ = q) (hown' : ctx'.task_queue_ = q)
    (hl : tq.worker ≠ .left) (hl' : tq'.worker ≠ .left)
    (hcur : tq'.current = tq'.worker.onStack)
    (hon : ∀ j, tq'.worker.onStack = some j → j = i ∧ ctx'.pc.runs = true)
    (hcount : tq'.in_progress_count_ + (if ctx.pc.unfinished then 1 else 0) =
      tq.in_progress_count_ + (if ctx'.pc.unfinished then 1 else 0))
    (hnodup : tq'.free_task_contexts_.Nodup)
    (hfree : ∀ j, j ∈ tq'.free_task_contexts_ ↔
      (j = i ∧ ctx'.pc.unfinished = false) ∨ (j ≠ i ∧ j ∈ tq.free_task_contexts_)) :
    QueueOk (l.set i ctx') q tq' := by
  refine ⟨hcur, ?_, ?_, hnodup, ?_, fun h => absurd h hl'⟩
  · intro j hj
    obtain ⟨rfl, hr⟩ := hon j hj
    exact ⟨ctx', List.getElem?_set_self (List.getElem?_eq_some_iff.mp hi).1, hown', hr⟩
  · have ht := total_set (unfinished q) l i ctx ctx' hi
    have hc := hok.count_eq
    rw [unfinished_own hown, unfinished_own hown'] at ht
    cases hu : ctx.pc.unfinished <;> cases hu' : ctx'.pc.unfinished <;>
      simp only [hu, hu', Bool.false_eq_true, if_true, if_false] at ht hcount <;> omega
  · intro _ j
    rw [hfree j, finished_set hi hown', hok.free_iff hl j]

theorem Sound.own {c : Config α χ} (hs : Sound c) {q : QueueId} {tq : TaskQueue α}
    {i : ContextId} {ctx : TaskContext α} (hq : c.queues[q]? = some tq)
    (hw : tq.worker = .fiber i) (hi : c.contexts[i]? = some ctx) :
    ctx.task_queue_ = q ∧ ctx.pc.runs = true := by
  obtain ⟨x, hx, hown, hr⟩ := (hs.queue q tq hq).on_stack i (by rw [hw]; rfl)
  rw [hi] at hx
  cases hx
  exact ⟨hown, hr⟩

theorem QueueOk.mem_free {l : List (TaskContext α)} {q : QueueId} {tq : TaskQueue α}
    (hok : QueueOk l q tq) (hl : tq.worker ≠ .left) {i : ContextId} {ctx : TaskContext α}
    (hi : l[i]? = some ctx) (hown : ctx.task_queue_ = q) :
    i ∈ tq.free_task_contexts_ ↔ ctx.pc.unfinished = false := by
  rw [hok.free_iff hl i]
  constructor
  · rintro ⟨x, hx, -, hu⟩
    rw [hi] at hx
    cases hx
    exact hu
  · intro hu
    exact ⟨ctx, hi, hown, hu⟩

/-- The free contexts do not change when the context stays free, or stays in use. -/
theorem QueueOk.free_same {l : List (TaskContext α)} {q : QueueId} {tq : TaskQueue α}
    (hok : QueueOk l q tq) (hl : tq.worker ≠ .left) {i : ContextId} {ctx ctx' : TaskContext α}
    (hi : l[i]? = some ctx) (hown : ctx.task_queue_ = q)
    (hu : ctx'.pc.unfinished = ctx.pc.unfinished) (j : ContextId) :
    j ∈ tq.free_task_contexts_ ↔
      (j = i ∧ ctx'.pc.unfinished = false) ∨ (j ≠ i ∧ j ∈ tq.free_task_contexts_) := by
  by_cases hji : j = i
  · subst hji
    rw [hok.mem_free hl hi hown, hu]
    simp
  · simp [hji]

theorem QueueOk.leave {l : List (TaskContext α)} {q : QueueId} {tq : TaskQueue α}
    (hok : QueueOk l q tq) (hw : tq.worker = .top) (hj : tq.join_possible = true) :
    QueueOk l q { tq with free_task_contexts_ := [], worker := .left } := by
  simp only [TaskQueue.join_possible, Bool.and_eq_true, beq_iff_eq] at hj
  refine ⟨?_, ?_, hok.count_eq, List.nodup_nil, ?_, fun _ => hj⟩
  · rw [hok.current_eq, hw]
    rfl
  · intro i h
    cases h
  · intro hl
    exact absurd rfl hl

theorem QueueOk.start_new {l : List (TaskContext α)} {q : QueueId} {tq : TaskQueue α}
    {wi : WorkItem} {p : Option FutureId} (hok : QueueOk l q tq)
    (hw : tq.worker = .picked wi) :
    QueueOk (l ++ [⟨q, p, .func_⟩]) q { tq with
      in_progress_count_ := tq.in_progress_count_ + 1
      current := some l.length
      worker := .fiber l.length } := by
  have hl : tq.worker ≠ .left := by
    rw [hw]
    intro h
    cases h
  refine ⟨rfl, ?_, ?_, hok.free_nodup, ?_, ?_⟩
  · intro i h
    cases h
    exact ⟨⟨q, p, .func_⟩, List.getElem?_concat_length, rfl, rfl⟩
  · show tq.in_progress_count_ + 1 = _
    have hone : unfinished q (⟨q, p, .func_⟩ : TaskContext α) = 1 := if_pos ⟨rfl, rfl⟩
    rw [total_append, total_cons, total_nil, hone, hok.count_eq]
    rfl
  · intro _ i
    show i ∈ tq.free_task_contexts_ ↔ _
    rw [hok.free_iff hl i]
    constructor
    · rintro ⟨ctx, hctx, hown, hu⟩
      refine ⟨ctx, ?_, hown, hu⟩
      rw [List.getElem?_append_left (List.getElem?_eq_some_iff.mp hctx).1, hctx]
    · rintro ⟨ctx, hctx, hown, hu⟩
      rw [List.getElem?_append] at hctx
      split at hctx
      · exact ⟨ctx, hctx, hown, hu⟩
      · rw [List.getElem?_singleton] at hctx
        split at hctx
        · cases hctx
          cases hu
        · cases hctx
  · intro h
    cases h

/-- The free contexts without the last one. -/
theorem mem_dropLast {l : List ContextId} {i : ContextId} (hn : l.Nodup)
    (hi : l.getLast? = some i) (j : ContextId) : j ∈ l.dropLast ↔ j ≠ i ∧ j ∈ l := by
  obtain ⟨l', rfl⟩ := List.getLast?_eq_some_iff.mp hi
  rw [List.dropLast_concat]
  rw [List.nodup_append] at hn
  obtain ⟨-, -, hne⟩ := hn
  constructor
  · intro hj
    exact ⟨hne j hj i (List.mem_singleton.mpr rfl), List.mem_append_left _ hj⟩
  · rintro ⟨hji, hj⟩
    rcases List.mem_append.mp hj with hj | hj
    · exact hj
    · exact absurd (List.mem_singleton.mp hj) hji

theorem QueueOk.start_free {l : List (TaskContext α)} {q : QueueId} {tq : TaskQueue α}
    {wi : WorkItem} {p : Option FutureId} {i : ContextId} {ctx : TaskContext α}
    (hok : QueueOk l q tq) (hw : tq.worker = .picked wi)
    (hf : tq.free_task_contexts_.getLast? = some i) (hi : l[i]? = some ctx)
    (hown : ctx.task_queue_ = q) (hp : ctx.pc = .parked) :
    QueueOk (l.set i { ctx with func_ := p, pc := .func_ }) q { tq with
      free_task_contexts_ := tq.free_task_contexts_.dropLast
      in_progress_count_ := tq.in_progress_count_ + 1
      current := some i
      worker := .fiber i } := by
  refine queueOk_of_set hok hi hown hown ?_ ?_ rfl ?_ ?_ ?_ ?_
  · rw [hw]
    intro h
    cases h
  · intro h
    cases h
  · intro j h
    cases h
    exact ⟨rfl, rfl⟩
  · rw [hp]
    exact Int.add_zero _
  · exact List.Nodup.sublist (List.dropLast_sublist _) hok.free_nodup
  · intro j
    show j ∈ tq.free_task_contexts_.dropLast ↔ _
    rw [mem_dropLast hok.free_nodup hf j]
    constructor
    · intro h
      exact Or.inr h
    · rintro (⟨-, h⟩ | h)
      · cases h
      · exact h

/-- A suspended context goes on. -/
theorem QueueOk.resume {l : List (TaskContext α)} {q : QueueId} {tq : TaskQueue α}
    {wi : WorkItem} {i : ContextId} {ctx : TaskContext α} {f : FutureId} {n : AwaitId}
    (hok : QueueOk l q tq) (hw : tq.worker = .picked wi) (hi : l[i]? = some ctx)
    (hown : ctx.task_queue_ = q) (hp : ctx.pc = .suspended f n) :
    QueueOk (l.set i { ctx with pc := .get f }) q
      { tq with current := some i, worker := .fiber i } := by
  have hl : tq.worker ≠ .left := by
    rw [hw]
    intro h
    cases h
  refine queueOk_of_set hok hi hown hown hl ?_ rfl ?_ ?_ hok.free_nodup ?_
  · intro h
    cases h
  · intro j h
    cases h
    exact ⟨rfl, rfl⟩
  · rw [hp]
    rfl
  · exact hok.free_same hl hi hown (by rw [hp]; rfl)

/-- The context of the worker yields. -/
theorem QueueOk.yield {l : List (TaskContext α)} {q : QueueId} {tq : TaskQueue α}
    {i : ContextId} {ctx : TaskContext α} {pc : Pc α} (hok : QueueOk l q tq)
    (hw : tq.worker = .fiber i) (hi : l[i]? = some ctx) (hown : ctx.task_queue_ = q)
    (hu : pc.unfinished = ctx.pc.unfinished) :
    QueueOk (l.set i { ctx with pc := pc }) q { tq with current := none, worker := .top } := by
  have hl : tq.worker ≠ .left := by
    rw [hw]
    intro h
    cases h
  refine queueOk_of_set hok hi hown hown hl ?_ rfl ?_ ?_ hok.free_nodup ?_
  · intro h
    cases h
  · intro j h
    cases h
  · show tq.in_progress_count_ + _ = tq.in_progress_count_ + if pc.unfinished then 1 else 0
    rw [hu]
  · exact hok.free_same hl hi hown hu

theorem task_complete_same (tq : TaskQueue α) (i : ContextId) :
    Same { tq with
      in_progress_count_ := tq.in_progress_count_ - 1
      free_task_contexts_ := tq.free_task_contexts_ ++ [i] } (tq.task_complete i) := by
  unfold TaskQueue.task_complete
  dsimp only
  split
  · exact Same.notify_one _
  · exact Same.refl _

theorem QueueOk.completed {l : List (TaskContext α)} {q : QueueId} {tq : TaskQueue α}
    {i : ContextId} {ctx : TaskContext α} (hok : QueueOk l q tq)
    (hw : tq.worker = .fiber i) (hi : l[i]? = some ctx) (hown : ctx.task_queue_ = q)
    (hp : ctx.pc = .finished_) :
    QueueOk (l.set i { ctx with pc := .last_yield }) q (tq.task_complete i) := by
  have hsame := task_complete_same tq i
  have hl : tq.worker ≠ .left := by
    rw [hw]
    intro h
    cases h
  have hon : (tq.task_complete i).worker.onStack = some i := by
    rw [hsame.stack]
    show tq.worker.onStack = some i
    rw [hw]
    rfl
  have hi' : i ∉ tq.free_task_contexts_ := by
    rw [hok.mem_free hl hi hown, hp]
    intro h
    cases h
  refine queueOk_of_set hok hi hown hown hl (fun h => hl (hsame.left h)) ?_ ?_ ?_ ?_ ?_
  · rw [hon, hsame.current]
    show tq.current = some i
    rw [hok.current_eq, hw]
    rfl
  · intro j h
    rw [hon] at h
    cases h
    exact ⟨rfl, rfl⟩
  · rw [hsame.count, hp]
    show tq.in_progress_count_ - 1 + 1 = tq.in_progress_count_ + 0
    omega
  · rw [hsame.free]
    show (tq.free_task_contexts_ ++ [i]).Nodup
    rw [List.nodup_append]
    refine ⟨hok.free_nodup, List.nodup_cons.mpr ⟨List.not_mem_nil, List.nodup_nil⟩, ?_⟩
    intro a ha b hb hab
    rw [List.mem_singleton] at hb
    rw [hab, hb] at ha
    exact hi' ha
  · intro j
    rw [hsame.free]
    show j ∈ tq.free_task_contexts_ ++ [i] ↔ _
    rw [List.mem_append, List.mem_singleton]
    constructor
    · rintro (h | h)
      · refine Or.inr ⟨?_, h⟩
        rintro rfl
        exact hi' h
      · exact Or.inl ⟨h, rfl⟩
    · rintro (⟨h, -⟩ | ⟨-, h⟩)
      · exact Or.inr h
      · exact Or.inl h

/-! ## Every move -/

theorem on_own_stack {tq : TaskQueue α} {i : ContextId} (hw : tq.worker = .fiber i)
    (j : ContextId) (h : tq.worker.onStack = some j) : j = i := by
  rw [hw] at h
  cases h
  rfl

theorem on_no_stack {tq : TaskQueue α} {i : ContextId} {w : Worker α} (hw : tq.worker = w)
    (hn : w.onStack = none) (j : ContextId) (h : tq.worker.onStack = some j) : j = i := by
  rw [hw, hn] at h
  cases h

theorem set_runs {l : List (TaskContext α)} {i : ContextId} {ctx ctx' : TaskContext α}
    {o : Option ContextId} (hi : l[i]? = some ctx) (h : ctx'.pc.runs = true → o = some i)
    (x : TaskContext α) (hx : (l.set i ctx')[i]? = some x) (hr : x.pc.runs = true) :
    o = some i := by
  rw [List.getElem?_set_self (List.getElem?_eq_some_iff.mp hi).1] at hx
  cases hx
  exact h hr

theorem move_sound {c : Config α χ} {e : Event α χ} {ch : Change α χ} (hs : Sound c)
    (h : Move c e ch) : Sound (ch.apply c) := by
  have hfits := h.fits
  cases h with
  | leave hq hw hj =>
    refine sound_of_own hs rfl hq (on_no_stack hw rfl) (Only.keep _ _) ?_
      ((hs.queue _ _ hq).leave hw hj)
    intro ctx hctx
    have hnone : c.contexts[c.contexts.length]? = none := List.getElem?_eq_none (Nat.le_refl _)
    rw [Slot.apply_keep, hnone] at hctx
    cases hctx
  | sleep hq hw hj he =>
    exact sound_of_quiet hs hfits (Same.worker hw rfl nofun nofun) trivial
  | @pick q b tq wi rest hq hw hj he =>
    exact sound_of_quiet hs hfits
      ((Same.queue_ tq rest).trans (Same.worker hw rfl nofun nofun)) trivial
  | skip hq hw => exact sound_of_quiet hs hfits (Same.worker hw rfl nofun nofun) trivial
  | plain hq hw => exact sound_of_quiet hs hfits (Same.worker hw rfl nofun nofun) trivial
  | start_new hq hw hc hf =>
    refine sound_of_own hs rfl hq (on_no_stack hw rfl) (Only.add rfl) ?_
      ((hs.queue _ _ hq).start_new hw)
    intro ctx _ _
    rfl
  | start_free hq hw hc hf hi hown hp =>
    exact sound_of_own hs rfl hq (on_no_stack hw rfl) (Only.set hi hown hown)
      (set_runs hi fun _ => rfl) ((hs.queue _ _ hq).start_free hw hf hi hown hp)
  | resume hq hw hc hi hown hp =>
    exact sound_of_own hs rfl hq (on_no_stack hw rfl) (Only.set hi hown hown)
      (set_runs hi fun _ => rfl) ((hs.queue _ _ hq).resume hw hi hown hp)
  | plain_ended hq hw he => exact sound_of_quiet hs hfits (Same.worker hw rfl nofun nofun) trivial
  | plain_stored hq hw hf hr =>
    exact sound_of_quiet hs hfits (Same.worker hw rfl nofun nofun) trivial
  | began hq hw hi hp => exact sound_of_quiet hs hfits trivial (Alike.pc hp rfl rfl)
  | fiber_ended hq hw hi hp he => exact sound_of_quiet hs hfits trivial (Alike.pc hp rfl rfl)
  | fiber_stored hq hw hi hp hfunc hf hr =>
    exact sound_of_quiet hs hfits trivial (Alike.pc hp rfl rfl)
  | registered hq hw hi hp hf hr => exact sound_of_quiet hs hfits trivial (Alike.pc hp rfl rfl)
  | found_ready hq hw hi hp hf hr => exact sound_of_quiet hs hfits trivial (Alike.pc hp rfl rfl)
  | pushed hq hw hi hp hf ha hq' =>
    exact sound_of_quiet hs hfits (Same.push_front _ _) (Alike.pc hp rfl rfl)
  | yielded hq hw hi hp =>
    obtain ⟨hown, -⟩ := hs.own hq hw hi
    exact sound_of_own hs rfl hq (on_own_stack hw) (Only.set hi hown hown)
      (set_runs hi nofun) ((hs.queue _ _ hq).yield hw hi hown (by rw [hp]; rfl))
  | got hq hw hi hp hf hr => exact sound_of_quiet hs hfits trivial (Alike.pc hp rfl rfl)
  | completed hq hw hi hp =>
    obtain ⟨hown, -⟩ := hs.own hq hw hi
    refine sound_of_own hs rfl hq (on_own_stack hw) (Only.set hi hown hown)
      (set_runs hi fun _ => ?_) ((hs.queue _ _ hq).completed hw hi hown hp)
    exact (task_complete_same _ _).stack.trans (congrArg Worker.onStack hw)
  | parked hq hw hi hp =>
    obtain ⟨hown, -⟩ := hs.own hq hw hi
    exact sound_of_own hs rfl hq (on_own_stack hw) (Only.set hi hown hown)
      (set_runs hi nofun) ((hs.queue _ _ hq).yield hw hi hown (by rw [hp]; rfl))
  | await_ready => exact sound_of_quiet hs hfits trivial trivial
  | await hq hw hi hp hf hr => exact sound_of_quiet hs hfits trivial (Alike.pc hp rfl rfl)
  | ret_plain hq hw => exact sound_of_quiet hs hfits (Same.worker hw rfl nofun nofun) trivial
  | ret_fiber hq hw hi hp => exact sound_of_quiet hs hfits trivial (Alike.pc hp rfl rfl)
  | threw hq hr => exact sound_of_quiet hs hfits trivial trivial
  | built hq hst => exact sound_of_quiet hs hfits trivial trivial
  | wake hq => exact sound_of_quiet hs hfits (Same.notify_one _) trivial
  | push_back hq => exact sound_of_quiet hs hfits (Same.push_back _ _) trivial
  | forget hq hwi => exact sound_of_quiet hs hfits (Same.push_back _ _) trivial
  | join hq => exact sound_of_quiet hs hfits (Same.joined _) trivial
  | made he => exact sound_of_quiet hs hfits trivial trivial
  | other hf hr => exact sound_of_quiet hs hfits trivial trivial
  | fulfilled hw hf hr hs' => exact sound_of_quiet hs hfits trivial trivial
  | run_other hd => exact sound_of_quiet hs hfits trivial trivial
  | run_push hd hf ha hq => exact sound_of_quiet hs hfits (Same.push_front _ _) trivial

end ltl.task_queue
