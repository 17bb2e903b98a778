-- The handshake of an await, counted: where the right to resume await `n` can
-- be, and what the log holds about it.
import Ltl.Accounting

open ltl.future_state slots counts runs

namespace ltl.task_queue

variable {α χ : Type}

/-! ## Weights -/

/-- What each thing of a configuration weighs: an item, a function that the worker runs itself, a
context by its function and its place in the code, a continuation and an entry of the log. -/
structure Weights (α χ : Type) where
  item : WorkItem → Nat := fun _ => 0
  plain : Option FutureId → Stage α → Nat := fun _ _ => 0
  stack : Option FutureId → Pc α → Nat := fun _ _ => 0
  cont : Cont → Nat := fun _ => 0
  entry : Entry α χ → Nat := fun _ => 0

namespace Weights

variable (W : Weights α χ)

def worker : Worker α → Nat
  | .picked wi => W.item wi
  | .plain p s => W.plain p s
  | _ => 0

def queue (tq : TaskQueue α) : Nat := total W.item tq.queue_ + W.worker tq.worker

def context (ctx : TaskContext α) : Nat := W.stack ctx.func_ ctx.pc

def future (s : Future α χ) : Nat := total W.cont s.continuations_

def setter (d : FutureId × List Cont) : Nat := total W.cont d.2

theorem queue_notify_one (tq : TaskQueue α) : W.queue tq.notify_one = W.queue tq := by
  unfold TaskQueue.notify_one
  split
  · rename_i hw
    unfold queue
    rw [hw]
    rfl
  · rfl

theorem queue_push_back (tq : TaskQueue α) (wi : WorkItem) :
    W.queue (tq.push_back wi) = W.queue tq + W.item wi := by
  have h : W.queue { tq with queue_ := tq.queue_ ++ [wi] } = W.queue tq + W.item wi := by
    show total W.item (tq.queue_ ++ [wi]) + W.worker tq.worker = _
    rw [total_append, total_cons, total_nil, Nat.add_zero]
    exact Nat.add_right_comm _ _ _
  unfold TaskQueue.push_back
  dsimp only
  split
  · rw [queue_notify_one, h]
  · exact h

theorem queue_push_front (tq : TaskQueue α) (wi : WorkItem) :
    W.queue (tq.push_front wi) = W.queue tq + W.item wi := by
  have h : W.queue { tq with queue_ := wi :: tq.queue_ } = W.queue tq + W.item wi := by
    show total W.item (wi :: tq.queue_) + W.worker tq.worker = _
    rw [total_cons, Nat.add_assoc, Nat.add_comm]
    rfl
  unfold TaskQueue.push_front
  dsimp only
  split
  · rw [queue_notify_one, h]
  · exact h

theorem queue_join (tq : TaskQueue α) : W.queue tq.join = W.worker tq.worker := by
  unfold TaskQueue.join
  rw [queue_notify_one]
  show total W.item [] + W.worker tq.worker = _
  rw [total_nil, Nat.zero_add]

theorem queue_task_complete (tq : TaskQueue α) (i : ContextId) :
    W.queue (tq.task_complete i) = W.queue tq := by
  unfold TaskQueue.task_complete
  dsimp only
  split
  · rw [queue_notify_one]
    rfl
  · rfl

end Weights

/-- The weight of everything in the configuration. -/
def weigh (W : Weights α χ) (c : Config α χ) : Nat :=
  total W.queue c.queues + total W.context c.contexts + total W.future c.futures +
    total W.setter c.setters + total W.entry c.log

namespace Change

variable (W : Weights α χ)

/-- The weight that the change takes away. -/
def gone (ch : Change α χ) : Nat :=
  ch.queues.gone W.queue + ch.contexts.gone W.context + ch.futures.gone W.future +
    ch.setters.gone W.setter + ch.log.gone W.entry

/-- The weight that the change brings. -/
def come (ch : Change α χ) : Nat :=
  ch.queues.come W.queue + ch.contexts.come W.context + ch.futures.come W.future +
    ch.setters.come W.setter + ch.log.come W.entry

theorem weigh_apply {ch : Change α χ} {c : Config α χ} (hf : ch.Fits c) :
    weigh W (ch.apply c) + ch.gone W = weigh W c + ch.come W := by
  have hq := Slot.total_apply W.queue hf.queues
  have hi := Slot.total_apply W.context hf.contexts
  have hs := Slot.total_apply W.future hf.futures
  have hd := Slot.total_apply W.setter hf.setters
  have hl := Slot.total_apply W.entry hf.log
  unfold weigh gone come Change.apply
  dsimp only
  omega

end Change

/-- The weight of the items that a `join` clears. -/
def dropped (W : Weights α χ) (c : Config α χ) : Event α χ → Nat
  | .join q =>
    match c.queues[q]? with
    | some tq => total W.item tq.queue_
    | none => 0
  | _ => 0

/-! ## What an await conserves -/

/-- One when it is about await `k`. -/
def one (k n : AwaitId) : Nat := if n = k then 1 else 0

/-- One once await `k` has begun. -/
def begun (k awaits : Nat) : Nat := if k < awaits then 1 else 0

theorem begun_succ (k awaits : Nat) : begun k (awaits + 1) = begun k awaits + one k awaits := by
  unfold begun one
  by_cases h : k < awaits
  · rw [if_pos h, if_pos (Nat.lt_succ_of_lt h), if_neg (Nat.ne_of_gt h)]
  · by_cases h' : awaits = k
    · subst h'
      rw [if_neg h, if_pos (Nat.lt_succ_self _), if_pos rfl]
    · rw [if_neg h, if_neg, if_neg h']
      intro hlt
      exact h (Nat.lt_of_le_of_ne (Nat.le_of_lt_succ hlt) (Ne.symm h'))

/-- The await that the stack is in, until it is resumed. -/
def Pc.awaits : Pc α → Option (FutureId × AwaitId)
  | .push_front f n => some (f, n)
  | .yield f n => some (f, n)
  | .suspended f n => some (f, n)
  | _ => none

/-- The entry is about an await. -/
def Entry.about : Entry α χ → Option AwaitId
  | .awaited n _ _ => some n
  | .yielded n => some n
  | .pushed n _ => some n
  | .resumed n _ => some n
  | _ => none

/-- Weights of which await `k` brings one, that its steps pass on from place to place. -/
structure Conserves (W : Weights α χ) (k : AwaitId) : Prop where
  away : ∀ p pc, pc.awaits = none → W.stack p pc = 0
  plain : ∀ p s, W.plain p s = 0
  empty : W.item .empty = 0
  task : ∀ p policy, W.item (.task p policy) = 0
  other : W.cont .other = 0
  silent : ∀ x : Entry α χ, x.about = none → W.entry x = 0
  registered : ∀ p i f n,
    W.stack p (.yield f n) + W.cont (.push_front i n) + W.entry (.awaited n i f) = one k n
  found_ready : ∀ p i f n, W.stack p (.push_front f n) + W.entry (.awaited n i f) = one k n
  pushed : ∀ p i f n q, W.stack p (.push_front f n) =
    W.stack p (.yield f n) + W.item (.resume_task i n) + W.entry (.pushed n q)
  run_push : ∀ i n q, W.cont (.push_front i n) = W.item (.resume_task i n) + W.entry (.pushed n q)
  yielded : ∀ p f n, W.stack p (.yield f n) = W.stack p (.suspended f n) + W.entry (.yielded n)
  resumed : ∀ p i f n q,
    W.stack p (.suspended f n) + W.item (.resume_task i n) = W.entry (.resumed n q)

theorem Conserves.step {W : Weights α χ} {k : AwaitId} (hW : Conserves W k) {c : Config α χ}
    {e : Event α χ} {ch : Change α χ} (h : Move c e ch) :
    ch.come W + begun k c.awaits + dropped W c e =
      ch.gone W + begun k (c.awaits + ch.awaits) := by
  have hparked := fun p => hW.away p .parked rfl
  have hfunc := fun p => hW.away p .func_ rfl
  have hwrapped := fun p s => hW.away p (.wrapped s) rfl
  have hcontinue := fun p f => hW.away p (.continue_with f) rfl
  have hget := fun p f => hW.away p (.get f) rfl
  have hfinished := fun p => hW.away p .finished_ rfl
  have hlast := fun p => hW.away p .last_yield rfl
  have hpl := hW.plain
  have he := hW.empty
  have ht := hW.task
  have ho := hW.other
  have hreset := fun i p => hW.silent (.reset i p) rfl
  have hbegan := fun i p => hW.silent (.began i p) rfl
  have hfin := fun i => hW.silent (.finished i) rfl
  have hret := fun p v => hW.silent (.returned p v) rfl
  have hthrew := fun p x => hW.silent (.threw p x) rfl
  cases h
  all_goals simp only [Change.come, Change.gone, Slot.come, Slot.gone, Weights.queue_push_back,
    Weights.queue_push_front, Weights.queue_notify_one, Weights.queue_task_complete,
    Weights.queue_join, dropped, begun_succ, Nat.add_zero, *]
  all_goals simp only [Weights.queue, Weights.worker, Weights.context, Weights.future,
    Weights.setter, total_append, total_cons, total_nil, *]
  all_goals try omega
  case resume q b tq i n f ctx hq hw hc hi hown hp =>
    have := hW.resumed ctx.func_ i f n q
    omega
  case registered q b tq i ctx f s hq hw hi hp hf hr =>
    have := hW.registered ctx.func_ i f c.awaits
    omega
  case found_ready q b tq i ctx f s hq hw hi hp hf hr =>
    have := hW.found_ready ctx.func_ i f c.awaits
    omega
  case pushed q b tq i ctx f n s q' tq' hq hw hi hp hf ha hq' =>
    have := hW.pushed ctx.func_ i f n q'
    omega
  case yielded q b tq i ctx f n hq hw hi hp =>
    have := hW.yielded ctx.func_ f n
    omega
  case forget q empty tq wi hq hwi =>
    rcases hwi with rfl | rfl <;> simp only [he, ht] <;> omega
  case made a he =>
    rcases he with ⟨t, rfl⟩ | rfl | ⟨f, rfl⟩ <;> dsimp only <;> omega
  case run_push d f i n cs s q tq hd hf ha hq =>
    have := hW.run_push i n q
    omega

/-- What there is of await `k` after a step, with what the step dropped. -/
theorem Conserves.next {W : Weights α χ} {k : AwaitId} (hW : Conserves W k) {c : Config α χ}
    {e : Event α χ} {ch : Change α χ} (h : Move c e ch) :
    weigh W (ch.apply c) + begun k c.awaits + dropped W c e =
      weigh W c + begun k (ch.apply c).awaits := by
  have hstep := hW.step h
  have hw := Change.weigh_apply W h.fits
  show _ = _ + begun k (c.awaits + ch.awaits)
  omega

theorem dropped_of_item {W : Weights α χ} (hW : ∀ wi, W.item wi = 0) (c : Config α χ)
    (e : Event α χ) : dropped W c e = 0 := by
  unfold dropped
  split
  · split
    · rename_i tq _
      rw [total_eq_zero_iff]
      intro wi _
      exact hW wi
    · rfl
  · rfl

/-! ## The five counts -/

/-- The context in await `k` that is about to push its resume item itself. -/
def Pc.pushing (k : AwaitId) : Pc α → Nat
  | .push_front _ n => one k n
  | _ => 0

/-- The context in await `k`, before its `yield`. -/
def Pc.yielding (k : AwaitId) : Pc α → Nat
  | .push_front _ n => one k n
  | .yield _ n => one k n
  | _ => 0

/-- The context in await `k`, until it is resumed. -/
def Pc.waiting (k : AwaitId) : Pc α → Nat
  | .push_front _ n => one k n
  | .yield _ n => one k n
  | .suspended _ n => one k n
  | _ => 0

def Cont.of (k : AwaitId) : Cont → Nat
  | .push_front _ n => one k n
  | .other => 0

def WorkItem.of (k : AwaitId) : WorkItem → Nat
  | .resume_task _ n => one k n
  | _ => 0

namespace Entry

def awaits (k : AwaitId) : Entry α χ → Nat
  | .awaited n _ _ => one k n
  | _ => 0

def yields (k : AwaitId) : Entry α χ → Nat
  | .yielded n => one k n
  | _ => 0

def pushes (k : AwaitId) : Entry α χ → Nat
  | .pushed n _ => one k n
  | _ => 0

def resumes (k : AwaitId) : Entry α χ → Nat
  | .resumed n _ => one k n
  | _ => 0

end Entry

/-- How often a resume item was pushed for await `k`. -/
def pushes (c : Config α χ) (k : AwaitId) : Nat := total (Entry.pushes k) c.log

/-- How often a resume item of await `k` was run. -/
def resumes (c : Config α χ) (k : AwaitId) : Nat := total (Entry.resumes k) c.log

/-- How often the task yielded in await `k`. -/
def yields (c : Config α χ) (k : AwaitId) : Nat := total (Entry.yields k) c.log

namespace Weights

/-- The entry of await `k`. -/
def entered (α χ : Type) (k : AwaitId) : Weights α χ where
  entry := Entry.awaits k

/-- The task before its `yield`, or the entry of the `yield`. -/
def yielding (α χ : Type) (k : AwaitId) : Weights α χ where
  stack _ pc := pc.yielding k
  entry := Entry.yields k

/-- The right to push the item, or the entry of the push. -/
def pushing (α χ : Type) (k : AwaitId) : Weights α χ where
  stack _ pc := pc.pushing k
  cont := Cont.of k
  entry := Entry.pushes k

/-- The right to push the item, the item, or the entry of its run. -/
def resuming (α χ : Type) (k : AwaitId) : Weights α χ where
  item := WorkItem.of k
  stack _ pc := pc.pushing k
  cont := Cont.of k
  entry := Entry.resumes k

/-- The task that waits, or the entry that it was resumed. -/
def waiting (α χ : Type) (k : AwaitId) : Weights α χ where
  stack _ pc := pc.waiting k
  entry := Entry.resumes k

end Weights

theorem silent_entry {k : AwaitId} (x : Entry α χ) (h : x.about = none) :
    x.awaits k = 0 ∧ x.yields k = 0 ∧ x.pushes k = 0 ∧ x.resumes k = 0 := by
  cases x <;> first | exact ⟨rfl, rfl, rfl, rfl⟩ | cases h

theorem away_pc {k : AwaitId} (pc : Pc α) (h : pc.awaits = none) :
    pc.pushing k = 0 ∧ pc.yielding k = 0 ∧ pc.waiting k = 0 := by
  cases pc <;> first | exact ⟨rfl, rfl, rfl⟩ | cases h

theorem entered_conserves (k : AwaitId) : Conserves (Weights.entered α χ k) k where
  away _ _ _ := rfl
  plain _ _ := rfl
  empty := rfl
  task _ _ := rfl
  other := rfl
  silent x h := (silent_entry x h).1
  registered _ _ _ _ := Nat.zero_add _
  found_ready _ _ _ _ := Nat.zero_add _
  pushed _ _ _ _ _ := rfl
  run_push _ _ _ := rfl
  yielded _ _ _ := rfl
  resumed _ _ _ _ _ := rfl

theorem yielding_conserves (k : AwaitId) : Conserves (Weights.yielding α χ k) k where
  away _ pc h := (away_pc pc h).2.1
  plain _ _ := rfl
  empty := rfl
  task _ _ := rfl
  other := rfl
  silent x h := (silent_entry x h).2.1
  registered _ _ _ _ := rfl
  found_ready _ _ _ _ := rfl
  pushed _ _ _ _ _ := rfl
  run_push _ _ _ := rfl
  yielded _ _ _ := (Nat.zero_add _).symm
  resumed _ _ _ _ _ := rfl

theorem pushing_conserves (k : AwaitId) : Conserves (Weights.pushing α χ k) k where
  away _ pc h := (away_pc pc h).1
  plain _ _ := rfl
  empty := rfl
  task _ _ := rfl
  other := rfl
  silent x h := (silent_entry x h).2.2.1
  registered _ _ _ _ := Nat.zero_add _
  found_ready _ _ _ _ := rfl
  pushed _ _ _ _ _ := (Nat.zero_add _).symm
  run_push _ _ _ := (Nat.zero_add _).symm
  yielded _ _ _ := rfl
  resumed _ _ _ _ _ := rfl

theorem resuming_conserves (k : AwaitId) : Conserves (Weights.resuming α χ k) k where
  away _ pc h := (away_pc pc h).1
  plain _ _ := rfl
  empty := rfl
  task _ _ := rfl
  other := rfl
  silent x h := (silent_entry x h).2.2.2
  registered _ _ _ _ := Nat.zero_add _
  found_ready _ _ _ _ := rfl
  pushed _ _ _ _ _ := (Nat.zero_add _).symm
  run_push _ _ _ := rfl
  yielded _ _ _ := rfl
  resumed _ _ _ _ _ := Nat.zero_add _

theorem waiting_conserves (k : AwaitId) : Conserves (Weights.waiting α χ k) k where
  away _ pc h := (away_pc pc h).2.2
  plain _ _ := rfl
  empty := rfl
  task _ _ := rfl
  other := rfl
  silent x h := (silent_entry x h).2.2.2
  registered _ _ _ _ := rfl
  found_ready _ _ _ _ := rfl
  pushed _ _ _ _ _ := rfl
  run_push _ _ _ := rfl
  yielded _ _ _ := rfl
  resumed _ _ _ _ _ := rfl

/-- The five counts of every await. Only a resume item can be lost. -/
structure Counted (c : Config α χ) : Prop where
  entered : ∀ k, weigh (Weights.entered α χ k) c = begun k c.awaits
  yielding : ∀ k, weigh (Weights.yielding α χ k) c = begun k c.awaits
  pushing : ∀ k, weigh (Weights.pushing α χ k) c = begun k c.awaits
  resuming : ∀ k, weigh (Weights.resuming α χ k) c ≤ begun k c.awaits
  waiting : ∀ k, weigh (Weights.waiting α χ k) c = begun k c.awaits

theorem weigh_init (W : Weights α χ) (n : Nat) : weigh W (init α χ n) = 0 := by
  have h : total W.queue (List.replicate n ({} : TaskQueue α)) = 0 := total_replicate _ _ _ rfl
  unfold weigh init
  dsimp only
  rw [h]
  rfl

theorem init_counted (n : Nat) : Counted (init α χ n) :=
  ⟨fun _ => weigh_init _ n, fun _ => weigh_init _ n, fun _ => weigh_init _ n,
    fun _ => Nat.le_of_eq (weigh_init _ n), fun _ => weigh_init _ n⟩

theorem move_counted {c : Config α χ} {e : Event α χ} {ch : Change α χ} (hc : Counted c)
    (h : Move c e ch) : Counted (ch.apply c) := by
  refine ⟨?_, ?_, ?_, ?_, ?_⟩ <;> intro k
  · have hn := (entered_conserves k).next h
    rw [dropped_of_item (fun _ => rfl), hc.entered k] at hn
    omega
  · have hn := (yielding_conserves k).next h
    rw [dropped_of_item (fun _ => rfl), hc.yielding k] at hn
    omega
  · have hn := (pushing_conserves k).next h
    rw [dropped_of_item (fun _ => rfl), hc.pushing k] at hn
    omega
  · have hn := (resuming_conserves k).next h
    have := hc.resuming k
    omega
  · have hn := (waiting_conserves k).next h
    rw [dropped_of_item (fun _ => rfl), hc.waiting k] at hn
    omega

end ltl.task_queue
