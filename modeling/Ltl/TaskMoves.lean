-- What one step of the task queues can do, said once: a change of at most one
-- queue, one context, one future and one loop of a setter, or a step that is
-- wrong in one of the ways below.
import Ltl.Runs
import Ltl.Slots
import Ltl.TaskQueue

open ltl.future_state slots

namespace ltl.task_queue

variable {α χ : Type}

/-- The change that a step makes. -/
structure Change (α χ : Type) where
  queues : Slot (TaskQueue α) := .keep
  contexts : Slot (TaskContext α) := .keep
  futures : Slot (Future α χ) := .keep
  setters : Slot (FutureId × List Cont) := .keep
  wrapped : Slot FutureId := .keep
  awaits : Nat := 0
  log : Slot (Entry α χ) := .keep
  fault : Option Fault := none

def Change.apply (ch : Change α χ) (c : Config α χ) : Config α χ where
  queues := ch.queues.apply c.queues
  contexts := ch.contexts.apply c.contexts
  futures := ch.futures.apply c.futures
  setters := ch.setters.apply c.setters
  wrapped := ch.wrapped.apply c.wrapped
  awaits := c.awaits + ch.awaits
  log := ch.log.apply c.log
  fault := ch.fault.or c.fault

structure Change.Fits (ch : Change α χ) (c : Config α χ) : Prop where
  queues : ch.queues.Fits c.queues
  contexts : ch.contexts.Fits c.contexts
  futures : ch.futures.Fits c.futures
  setters : ch.setters.Fits c.setters
  log : ch.log.Fits c.log

/-- `operator()` of the function with the promise `p` is at its end. -/
inductive Ended (c : Config α χ) : Option FutureId → Stage α → Prop where
  | forgotten {v} : Ended c none (.set_value v)
  | drained {p d f} (hd : c.setters[d]? = some (f, [])) : Ended c p (.drain d)

/-- The worker of `q` runs code of the client, in the function with the promise `p`. -/
inductive Runs (c : Config α χ) (q : QueueId) (tq : TaskQueue α) : Option FutureId → Prop where
  | plain {p} (hw : tq.worker = .plain p .task_) : Runs c q tq p
  | fiber {i ctx} (hw : tq.worker = .fiber i) (hi : c.contexts[i]? = some ctx)
      (hp : ctx.pc = .wrapped .task_) : Runs c q tq ctx.func_

/-- The worker of `q` is about to store the value of the function with the promise `p`. -/
inductive Stores (c : Config α χ) (q : QueueId) (tq : TaskQueue α) : Option FutureId → Prop where
  | plain {p v} (hw : tq.worker = .plain p (.set_value v)) : Stores c q tq p
  | fiber {i ctx v} (hw : tq.worker = .fiber i) (hi : c.contexts[i]? = some ctx)
      (hp : ctx.pc = .wrapped (.set_value v)) : Stores c q tq ctx.func_

/-- The steps that go as they should, and the exceptions that get out of a task. -/
inductive Move (c : Config α χ) : Event α χ → Change α χ → Prop where
  | leave {q b tq} (hq : c.queues[q]? = some tq) (hw : tq.worker = .top)
      (hj : tq.join_possible = true) :
      Move c (.worker q b)
        { queues := .set q tq { tq with free_task_contexts_ := [], worker := .left } }
  | sleep {q b tq} (hq : c.queues[q]? = some tq) (hw : tq.worker = .top)
      (hj : tq.join_possible = false) (he : tq.queue_ = []) :
      Move c (.worker q b) { queues := .set q tq { tq with worker := .asleep } }
  | pick {q b tq wi rest} (hq : c.queues[q]? = some tq) (hw : tq.worker = .top)
      (hj : tq.join_possible = false) (he : tq.queue_ = wi :: rest) :
      Move c (.worker q b)
        { queues := .set q tq { tq with queue_ := rest, worker := .picked wi } }
  | skip {q b tq} (hq : c.queues[q]? = some tq) (hw : tq.worker = .picked .empty) :
      Move c (.worker q b) { queues := .set q tq { tq with worker := .top } }
  | plain {q b tq p} (hq : c.queues[q]? = some tq)
      (hw : tq.worker = .picked (.task p .non_resumable)) :
      Move c (.worker q b) { queues := .set q tq { tq with worker := .plain p .task_ } }
  | start_new {q b tq p} (hq : c.queues[q]? = some tq)
      (hw : tq.worker = .picked (.task p .resumable)) (hc : tq.current = none)
      (hf : tq.free_task_contexts_.getLast? = none) :
      Move c (.worker q b)
        { queues := .set q tq { tq with
            in_progress_count_ := tq.in_progress_count_ + 1
            current := some c.contexts.length
            worker := .fiber c.contexts.length }
          contexts := .add ⟨q, p, .func_⟩
          log := .add (.reset c.contexts.length p) }
  | start_free {q b tq p i ctx} (hq : c.queues[q]? = some tq)
      (hw : tq.worker = .picked (.task p .resumable)) (hc : tq.current = none)
      (hf : tq.free_task_contexts_.getLast? = some i) (hi : c.contexts[i]? = some ctx)
      (hown : ctx.task_queue_ = q) (hp : ctx.pc = .parked) :
      Move c (.worker q b)
        { queues := .set q tq { tq with
            free_task_contexts_ := tq.free_task_contexts_.dropLast
            in_progress_count_ := tq.in_progress_count_ + 1
            current := some i
            worker := .fiber i }
          contexts := .set i ctx { ctx with func_ := p, pc := .func_ }
          log := .add (.reset i p) }
  | resume {q b tq i n f ctx} (hq : c.queues[q]? = some tq)
      (hw : tq.worker = .picked (.resume_task i n)) (hc : tq.current = none)
      (hi : c.contexts[i]? = some ctx) (hown : ctx.task_queue_ = q)
      (hp : ctx.pc = .suspended f n) :
      Move c (.worker q b)
        { queues := .set q tq { tq with current := some i, worker := .fiber i }
          contexts := .set i ctx { ctx with pc := .get f }
          log := .add (.resumed n q) }
  | plain_ended {q b tq p s} (hq : c.queues[q]? = some tq) (hw : tq.worker = .plain p s)
      (he : Ended c p s) :
      Move c (.worker q b) { queues := .set q tq { tq with worker := .top } }
  | plain_stored {q b tq f v s} (hq : c.queues[q]? = some tq)
      (hw : tq.worker = .plain (some f) (.set_value v)) (hf : c.futures[f]? = some s)
      (hr : ready s = false) :
      Move c (.worker q b)
        { queues := .set q tq { tq with worker := .plain (some f) (.drain c.setters.length) }
          futures := .set f s { s with value_ := some v, continuations_ := [] }
          setters := .add (f, s.continuations_) }
  | began {q b tq i ctx} (hq : c.queues[q]? = some tq) (hw : tq.worker = .fiber i)
      (hi : c.contexts[i]? = some ctx) (hp : ctx.pc = .func_) :
      Move c (.worker q b)
        { contexts := .set i ctx { ctx with pc := .wrapped .task_ }
          log := .add (.began i ctx.func_) }
  | fiber_ended {q b tq i ctx s} (hq : c.queues[q]? = some tq) (hw : tq.worker = .fiber i)
      (hi : c.contexts[i]? = some ctx) (hp : ctx.pc = .wrapped s) (he : Ended c ctx.func_ s) :
      Move c (.worker q b) { contexts := .set i ctx { ctx with pc := .finished_ } }
  | fiber_stored {q b tq i ctx f v s} (hq : c.queues[q]? = some tq) (hw : tq.worker = .fiber i)
      (hi : c.contexts[i]? = some ctx) (hp : ctx.pc = .wrapped (.set_value v))
      (hfunc : ctx.func_ = some f) (hf : c.futures[f]? = some s) (hr : ready s = false) :
      Move c (.worker q b)
        { contexts := .set i ctx { ctx with pc := .wrapped (.drain c.setters.length) }
          futures := .set f s { s with value_ := some v, continuations_ := [] }
          setters := .add (f, s.continuations_) }
  | registered {q b tq i ctx f s} (hq : c.queues[q]? = some tq) (hw : tq.worker = .fiber i)
      (hi : c.contexts[i]? = some ctx) (hp : ctx.pc = .continue_with f)
      (hf : c.futures[f]? = some s) (hr : ready s = false) :
      Move c (.worker q b)
        { contexts := .set i ctx { ctx with pc := .yield f c.awaits }
          futures := .set f s { s with
            continuations_ := s.continuations_ ++ [.push_front i c.awaits] }
          awaits := 1
          log := .add (.awaited c.awaits i f) }
  | found_ready {q b tq i ctx f s} (hq : c.queues[q]? = some tq) (hw : tq.worker = .fiber i)
      (hi : c.contexts[i]? = some ctx) (hp : ctx.pc = .continue_with f)
      (hf : c.futures[f]? = some s) (hr : ready s = true) :
      Move c (.worker q b)
        { contexts := .set i ctx { ctx with pc := .push_front f c.awaits }
          awaits := 1
          log := .add (.awaited c.awaits i f) }
  | pushed {q b tq i ctx f n s q' tq'} (hq : c.queues[q]? = some tq)
      (hw : tq.worker = .fiber i) (hi : c.contexts[i]? = some ctx)
      (hp : ctx.pc = .push_front f n) (hf : c.futures[f]? = some s)
      (ha : s.await_queue_ = some q') (hq' : c.queues[q']? = some tq') :
      Move c (.worker q b)
        { queues := .set q' tq' (tq'.push_front (.resume_task i n))
          contexts := .set i ctx { ctx with pc := .yield f n }
          log := .add (.pushed n q') }
  | yielded {q b tq i ctx f n} (hq : c.queues[q]? = some tq) (hw : tq.worker = .fiber i)
      (hi : c.contexts[i]? = some ctx) (hp : ctx.pc = .yield f n) :
      Move c (.worker q b)
        { queues := .set q tq { tq with current := none, worker := .top }
          contexts := .set i ctx { ctx with pc := .suspended f n }
          log := .add (.yielded n) }
  | got {q b tq i ctx f s} (hq : c.queues[q]? = some tq) (hw : tq.worker = .fiber i)
      (hi : c.contexts[i]? = some ctx) (hp : ctx.pc = .get f) (hf : c.futures[f]? = some s)
      (hr : ready s = true) :
      Move c (.worker q b) { contexts := .set i ctx { ctx with pc := .wrapped .task_ } }
  | completed {q b tq i ctx} (hq : c.queues[q]? = some tq) (hw : tq.worker = .fiber i)
      (hi : c.contexts[i]? = some ctx) (hp : ctx.pc = .finished_) :
      Move c (.worker q b)
        { queues := .set q tq (tq.task_complete i)
          contexts := .set i ctx { ctx with pc := .last_yield }
          log := .add (.finished i) }
  | parked {q b tq i ctx} (hq : c.queues[q]? = some tq) (hw : tq.worker = .fiber i)
      (hi : c.contexts[i]? = some ctx) (hp : ctx.pc = .last_yield) :
      Move c (.worker q b)
        { queues := .set q tq { tq with current := none, worker := .top }
          contexts := .set i ctx { ctx with pc := .parked } }
  | await_ready {q f} : Move c (.await q f) {}
  | await {q tq f i ctx s} (hq : c.queues[q]? = some tq) (hw : tq.worker = .fiber i)
      (hi : c.contexts[i]? = some ctx) (hp : ctx.pc = .wrapped .task_)
      (hf : c.futures[f]? = some s) (hr : ready s = false) :
      Move c (.await q f) { contexts := .set i ctx { ctx with pc := .continue_with f } }
  | ret_plain {q tq p v} (hq : c.queues[q]? = some tq) (hw : tq.worker = .plain p .task_) :
      Move c (.ret q v)
        { queues := .set q tq { tq with worker := .plain p (.set_value v) }
          log := .add (.returned p v) }
  | ret_fiber {q tq i ctx v} (hq : c.queues[q]? = some tq) (hw : tq.worker = .fiber i)
      (hi : c.contexts[i]? = some ctx) (hp : ctx.pc = .wrapped .task_) :
      Move c (.ret q v)
        { contexts := .set i ctx { ctx with pc := .wrapped (.set_value v) }
          log := .add (.returned ctx.func_ v) }
  | threw {q tq p x} (hq : c.queues[q]? = some tq) (hr : Runs c q tq p) :
      Move c (.throw_ q x) { log := .add (.threw p x), fault := some .terminated }
  | built {q tq p x} (hq : c.queues[q]? = some tq) (hs : Stores c q tq p) :
      Move c (.worker q (some x)) { log := .add (.threw p x), fault := some .terminated }
  | wake {q tq} (hq : c.queues[q]? = some tq) :
      Move c (.wake q) { queues := .set q tq tq.notify_one }
  | push_back {thread q policy tq} (hq : c.queues[q]? = some tq) :
      Move c (.push_back thread q policy)
        { queues := .set q tq (tq.push_back (.task (some c.futures.length) policy))
          futures := .add { await_queue_ := get_await_queue c thread }
          wrapped := .add c.futures.length }
  | forget {q empty tq wi} (hq : c.queues[q]? = some tq)
      (hwi : wi = .empty ∨ wi = .task none .non_resumable) :
      Move c (.push_back_and_forget q empty) { queues := .set q tq (tq.push_back wi) }
  | join {q tq} (hq : c.queues[q]? = some tq) :
      Move c (.join q) { queues := .set q tq tq.join }
  | made {e a} (he : (∃ t, e = .promise t) ∨ e = .then_ ∨ ∃ f, e = .unwrap f) :
      Move c e { futures := .add { await_queue_ := a } }
  | other {f s} (hf : c.futures[f]? = some s) (hr : ready s = false) :
      Move c (.add_continuation f)
        { futures := .set f s { s with continuations_ := s.continuations_ ++ [.other] } }
  | fulfilled {f r s t} (hw : f ∉ c.wrapped) (hf : c.futures[f]? = some s)
      (hr : ready s = false)
      (ht : (∃ v, r = .ok v ∧ t = { s with value_ := some v }) ∨
        ∃ x, r = .error x ∧ t = { s with exception_ := x }) :
      Move c (.fulfil f r)
        { futures := .set f s { t with continuations_ := [] }
          setters := .add (f, s.continuations_) }
  | run_other {d f cs} (hd : c.setters[d]? = some (f, .other :: cs)) :
      Move c (.run_next d) { setters := .set d (f, .other :: cs) (f, cs) }
  | run_push {d f i n cs s q tq} (hd : c.setters[d]? = some (f, .push_front i n :: cs))
      (hf : c.futures[f]? = some s) (ha : s.await_queue_ = some q)
      (hq : c.queues[q]? = some tq) :
      Move c (.run_next d)
        { queues := .set q tq (tq.push_front (.resume_task i n))
          setters := .set d (f, .push_front i n :: cs) (f, cs)
          log := .add (.pushed n q) }

/-- The steps that go wrong because of what a task awaits: a resume item on the wrong queue or for
another await, and a future without a queue. -/
inductive Astray (c c' : Config α χ) : Prop where
  | resume_other {q : QueueId} {tq : TaskQueue α} {i : ContextId} {n fault}
      (hq : c.queues[q]? = some tq) (hw : tq.worker = .picked (.resume_task i n))
      (hbad : ∀ ctx f, c.contexts[i]? = some ctx → ctx.task_queue_ = q →
        ctx.pc ≠ .suspended f n)
      (hfault : fault = .other_thread ∨ fault = .stale_resume)
      (he : c' = (c.note [.resumed n q]).fail fault)
  | fiber_null {q : QueueId} {tq : TaskQueue α} {i : ContextId} {ctx} {f : FutureId} {n s}
      (hq : c.queues[q]? = some tq) (hw : tq.worker = .fiber i)
      (hi : c.contexts[i]? = some ctx) (hp : ctx.pc = .push_front f n)
      (hf : c.futures[f]? = some s) (ha : s.await_queue_ = none)
      (he : c' = (c.fail .null_queue).setContext i { ctx with pc := .yield f n })
  | setter_null {d : Nat} {f : FutureId} {i n cs s}
      (hd : c.setters[d]? = some (f, .push_front i n :: cs))
      (hf : c.futures[f]? = some s) (ha : s.await_queue_ = none)
      (he : c' = { c with setters := c.setters.set d (f, cs) }.fail .null_queue)

/-- The steps that go wrong. -/
inductive Wrong (c c' : Config α χ) : Prop where
  | start_in_context {q : QueueId} {tq : TaskQueue α} {p} (hq : c.queues[q]? = some tq)
      (hw : tq.worker = .picked (.task p .resumable)) (hc : tq.current.isSome = true)
  | resume_in_context {q : QueueId} {tq : TaskQueue α} {i n} (hq : c.queues[q]? = some tq)
      (hw : tq.worker = .picked (.resume_task i n)) (hc : tq.current.isSome = true)
  | yield_outside {q : QueueId} {tq : TaskQueue α} {i} (hq : c.queues[q]? = some tq)
      (hw : tq.worker = .fiber i) (hc : tq.current = none)
  | start_busy {q : QueueId} {tq : TaskQueue α} {p} {i : ContextId} {ctx}
      (hq : c.queues[q]? = some tq) (hw : tq.worker = .picked (.task p .resumable))
      (hf : tq.free_task_contexts_.getLast? = some i) (hi : c.contexts[i]? = some ctx)
      (hbad : ctx.task_queue_ ≠ q ∨ ctx.pc ≠ .parked)
  | already {q : QueueId} {tq : TaskQueue α} {f : FutureId} {s}
      (hq : c.queues[q]? = some tq) (hs : Stores c q tq (some f)) (hf : c.futures[f]? = some s)
      (hr : ready s = true)
  | astray (h : Astray c c')

/-! ## Every step is one of these -/

theorem Move.fits {c : Config α χ} {e : Event α χ} {ch : Change α χ} (h : Move c e ch) :
    ch.Fits c := by
  cases h <;> constructor <;> trivial

/-- Either a move, or a step that goes wrong. -/
def Does (c : Config α χ) (e : Event α χ) (c' : Config α χ) : Prop :=
  (∃ ch, Move c e ch ∧ c' = ch.apply c) ∨ Wrong c c'

theorem Does.of_move {c c' : Config α χ} {e : Event α χ} {ch : Change α χ} (h : Move c e ch)
    (he : c' = ch.apply c) : Does c e c' := Or.inl ⟨ch, h, he⟩

theorem set_append_self {β : Type} (l : List β) (a b : β) :
    (l ++ [a]).set l.length b = l ++ [b] := by
  rw [List.set_append_right _ _ (Nat.le_refl _), Nat.sub_self]
  rfl

theorem resumed_cases {pc pc' : Pc α} {n : AwaitId} (h : pc.resumed (some n) = some pc') :
    ∃ f, pc = .suspended f n ∧ pc' = .get f := by
  unfold Pc.resumed at h
  split at h
  · rename_i heq
    cases heq
  · rename_i f m n' heq
    cases heq
    split at h
    · rename_i hm
      subst hm
      cases h
      exact ⟨f, rfl, rfl⟩
    · cases h
  · cases h

theorem run_in_new_context_does {c c' : Config α χ} {q : QueueId} {tq : TaskQueue α}
    {p : Option FutureId} {b : Option χ} (hq : c.queues[q]? = some tq)
    (hw : tq.worker = .picked (.task p .resumable))
    (h : run_in_new_context c q tq p = some c') : Does c (.worker q b) c' := by
  unfold run_in_new_context at h
  split at h
  · rename_i hc
    exact Or.inr (.start_in_context hq hw hc)
  · rename_i hc
    have hcur : tq.current = none := by simpa using hc
    split at h
    · rename_i hf
      refine .of_move (.start_new hq hw hcur hf) ?_
      simp only [resume, hcur, Config.note, Option.isSome_none, Bool.false_eq_true, if_false,
        List.getElem?_append_right (Nat.le_refl _), Nat.sub_self, List.getElem?_cons_zero,
        ne_eq, not_true_eq_false, Pc.resumed, Config.setContext, Config.setQueue,
        Option.some.injEq] at h
      subst h
      simp only [Change.apply, Slot.apply, set_append_self]
      rfl
    · rename_i i hf
      split at h
      · cases h
      · rename_i ctx hi
        by_cases hgood : ctx.task_queue_ = q ∧ ctx.pc = .parked
        · obtain ⟨hown, hp⟩ := hgood
          subst hown
          refine .of_move (.start_free hq hw hcur hf hi rfl hp) ?_
          have hlt := (List.getElem?_eq_some_iff.mp hi).1
          simp only [resume, hcur, Config.note, Config.setContext, Option.isSome_none,
            Bool.false_eq_true, if_false, List.getElem?_set_self hlt, ne_eq,
            not_true_eq_false, hp, Pc.resumed, Config.setQueue, Option.some.injEq,
            List.set_set] at h
          subst h
          rfl
        · refine Or.inr (.start_busy hq hw hf hi ?_)
          by_cases hown : ctx.task_queue_ = q
          · exact Or.inr (fun hp => hgood ⟨hown, hp⟩)
          · exact Or.inl hown

theorem resume_does {c : Config α χ} {q : QueueId} {tq : TaskQueue α} {i : ContextId}
    {n : AwaitId} {b : Option χ} (hq : c.queues[q]? = some tq)
    (hw : tq.worker = .picked (.resume_task i n)) :
    Does c (.worker q b) (resume (c.note [.resumed n q]) q tq i (some n)) := by
  by_cases hc : tq.current.isSome = true
  · exact Or.inr (.resume_in_context hq hw hc)
  · have hcur : tq.current = none := by simpa using hc
    by_cases hgood : ∃ ctx f, c.contexts[i]? = some ctx ∧ ctx.task_queue_ = q ∧
        ctx.pc = .suspended f n
    · obtain ⟨ctx, f, hi, hown, hp⟩ := hgood
      refine .of_move (.resume hq hw hcur hi hown hp) ?_
      simp only [resume, hcur, Config.note, Option.isSome_none, Bool.false_eq_true, if_false, hi,
        hown, ne_eq, not_true_eq_false, hp, Pc.resumed, if_true, Config.setContext,
        Config.setQueue]
      rfl
    · have hbad : ∀ ctx f, c.contexts[i]? = some ctx → ctx.task_queue_ = q →
          ctx.pc ≠ .suspended f n := fun ctx f hi hown hp => hgood ⟨ctx, f, hi, hown, hp⟩
      have hfail : ∃ fault, (fault = .other_thread ∨ fault = .stale_resume) ∧
          resume (c.note [.resumed n q]) q tq i (some n) =
            (c.note [.resumed n q]).fail fault := by
        simp only [resume, hcur, Config.note, Option.isSome_none, Bool.false_eq_true, if_false]
        split
        · exact ⟨_, Or.inr rfl, rfl⟩
        · rename_i ctx hi
          split
          · exact ⟨_, Or.inl rfl, rfl⟩
          · rename_i hown
            split
            · exact ⟨_, Or.inr rfl, rfl⟩
            · rename_i pc hpc
              obtain ⟨f, hp, -⟩ := resumed_cases hpc
              exact absurd hp (hbad ctx f hi (Classical.not_not.mp hown))
      obtain ⟨fault, hfault, he⟩ := hfail
      exact Or.inr (.astray (.resume_other hq hw hbad hfault he))

/-- The three ends of a step of `operator()`. -/
theorem wrapped_function.spec {c c' : Config α χ} {p : Option FutureId} {s : Stage α}
    {b : Option χ} {r : Next α} (h : wrapped_function c p s b = some (c', r)) :
    (Ended c p s ∧ c' = c ∧ r = .ended) ∨
    (∃ f v fut, s = .set_value v ∧ p = some f ∧ c.futures[f]? = some fut ∧ ready fut = false ∧
      c' = (c.setFuture f { fut with value_ := some v, continuations_ := [] }).startLoop f
        fut.continuations_ ∧ r = .stage (.drain c.setters.length)) ∨
    (∃ v x, s = .set_value v ∧ r = .terminated ∧ b = some x ∧
      c' = (c.note [.threw p x]).fail .terminated) ∨
    (∃ f v fut, s = .set_value v ∧ p = some f ∧ c.futures[f]? = some fut ∧
      ready fut = true) := by
  unfold wrapped_function at h
  split at h
  · cases h
  · cases h
    exact Or.inl ⟨.forgotten, rfl, rfl⟩
  · rename_i v f
    split at h
    · cases h
    · rename_i fut hf
      cases hset : set_value fut (storedAs v b) with
      | mk l s' =>
        rcases set_value_impl.spec fut s' (storedAs v b) true l hset with
          ⟨hr, -, rfl⟩ | ⟨hr, ha, rfl⟩ | ⟨hr, x, hv, rfl⟩ | ⟨hr, w, hv, rfl, rfl⟩
        · exact Or.inr (Or.inr (Or.inr ⟨f, v, fut, rfl, rfl, hf, hr⟩))
        · cases ha
        · simp only [hset, Option.some.injEq, Prod.mk.injEq] at h
          obtain ⟨rfl, rfl⟩ := h
          have hb : b = some x := by
            cases b with
            | none => cases hv
            | some y =>
              cases hv
              rfl
          exact Or.inr (Or.inr (Or.inl ⟨v, x, rfl, rfl, hb, rfl⟩))
        · simp only [hset, Option.some.injEq, Prod.mk.injEq] at h
          obtain ⟨rfl, rfl⟩ := h
          have hw : w = v := by
            cases b with
            | none =>
              cases hv
              rfl
            | some y => cases hv
          subst hw
          exact Or.inr (Or.inl ⟨f, w, fut, rfl, rfl, hf, hr, rfl, rfl⟩)
  · split at h
    · rename_i d _ f hd
      cases h
      exact Or.inl ⟨.drained hd, rfl, rfl⟩
    · cases h

theorem yield_does {c c' : Config α χ} {q : QueueId} {tq : TaskQueue α} {i : ContextId}
    {ctx : TaskContext α} {pc : Pc α} {b : Option χ} {es : Slot (Entry α χ)}
    (hq : c.queues[q]? = some tq) (hw : tq.worker = .fiber i)
    (hm : Move c (.worker q b)
      { queues := .set q tq { tq with current := none, worker := .top }
        contexts := .set i ctx { ctx with pc := pc }
        log := es })
    (h : yield { c with log := es.apply c.log } q tq i ctx pc = c') :
    Does c (.worker q b) c' := by
  unfold yield at h
  split at h
  · subst h
    exact .of_move hm rfl
  · rename_i hc
    exact Or.inr (.yield_outside hq hw (by simpa using hc))

theorem pushResume_cases {c c' : Config α χ} {f : FutureId} {i : ContextId} {n : AwaitId}
    (h : pushResume c f i n = some c') : ∃ s, c.futures[f]? = some s ∧
      ((s.await_queue_ = none ∧ c' = c.fail .null_queue) ∨ ∃ q tq, s.await_queue_ = some q ∧ c.queues[q]? = some tq ∧
        c' = (c.setQueue q (tq.push_front (.resume_task i n))).note [.pushed n q]) := by
  unfold pushResume at h
  split at h
  · cases h
  · rename_i s hf
    refine ⟨s, hf, ?_⟩
    split at h
    · rename_i ha
      cases h
      exact Or.inl ⟨ha, rfl⟩
    · rename_i q ha
      split at h
      · cases h
      · rename_i tq hq
        cases h
        exact Or.inr ⟨q, tq, ha, hq, rfl⟩

theorem continue_with_does {c : Config α χ} {q : QueueId} {tq : TaskQueue α} {i : ContextId}
    {ctx : TaskContext α} {f : FutureId} {s : Future α χ} {b : Option χ}
    (hq : c.queues[q]? = some tq) (hw : tq.worker = .fiber i) (hi : c.contexts[i]? = some ctx)
    (hp : ctx.pc = .continue_with f) (hf : c.futures[f]? = some s) {c' : Config α χ}
    (h : fiberStep c q tq i ctx b = some c') : Does c (.worker q b) c' := by
  simp only [fiberStep, hp, hf] at h
  rcases add_continuation.spec s (.push_front i c.awaits) with ⟨hr, ha⟩ | ⟨hr, ha⟩
  · simp only [ha, Option.some.injEq] at h
    subst h
    exact .of_move (.found_ready hq hw hi hp hf hr) rfl
  · simp only [ha, Option.some.injEq] at h
    subst h
    exact .of_move (.registered hq hw hi hp hf hr) rfl

/-- A step of `operator()` on the stack of a context. -/
theorem fiber_wrapped_does {c c' : Config α χ} {q : QueueId} {tq : TaskQueue α} {i : ContextId}
    {ctx : TaskContext α} {s : Stage α} {b : Option χ}
    (hq : c.queues[q]? = some tq) (hw : tq.worker = .fiber i) (hi : c.contexts[i]? = some ctx)
    (hp : ctx.pc = .wrapped s) (h : fiberStep c q tq i ctx b = some c') :
    Does c (.worker q b) c' := by
  simp only [fiberStep, hp] at h
  cases hwf : wrapped_function c ctx.func_ s b with
  | none =>
    rw [hwf] at h
    cases h
  | some r =>
    obtain ⟨c₁, r⟩ := r
    rw [hwf] at h
    rcases wrapped_function.spec hwf with ⟨he, rfl, rfl⟩ | ⟨f, v, fut, rfl, hfunc, hf, hr, rfl, rfl⟩ |
      ⟨v, x, rfl, rfl, rfl, rfl⟩ | ⟨f, v, fut, rfl, hfunc, hf, hr⟩
    · cases h
      exact .of_move (.fiber_ended hq hw hi hp he) rfl
    · cases h
      exact .of_move (.fiber_stored hq hw hi hp hfunc hf hr) rfl
    · cases h
      exact .of_move (.built hq (.fiber hw hi hp)) rfl
    · exact Or.inr (.already hq (hfunc ▸ .fiber hw hi hp) hf hr)

theorem fiberStep_does {c c' : Config α χ} {q : QueueId} {tq : TaskQueue α} {i : ContextId}
    {ctx : TaskContext α} {b : Option χ}
    (hq : c.queues[q]? = some tq) (hw : tq.worker = .fiber i) (hi : c.contexts[i]? = some ctx)
    (h : fiberStep c q tq i ctx b = some c') : Does c (.worker q b) c' := by
  cases hp : ctx.pc with
  | parked =>
    simp only [fiberStep, hp] at h
    cases h
  | func_ =>
    simp only [fiberStep, hp] at h
    cases h
    exact .of_move (.began hq hw hi hp) rfl
  | wrapped s => exact fiber_wrapped_does hq hw hi hp h
  | continue_with f =>
    cases hf : c.futures[f]? with
    | none =>
      simp only [fiberStep, hp, hf] at h
      cases h
    | some s => exact continue_with_does hq hw hi hp hf h
  | push_front f n =>
    simp only [fiberStep, hp, Option.map_eq_some_iff] at h
    obtain ⟨c₁, h₁, rfl⟩ := h
    obtain ⟨s, hf, ⟨ha, rfl⟩ | ⟨q', tq', ha, hq', rfl⟩⟩ := pushResume_cases h₁
    · exact Or.inr (.astray (.fiber_null hq hw hi hp hf ha rfl))
    · exact .of_move (.pushed hq hw hi hp hf ha hq') rfl
  | yield f n =>
    simp only [fiberStep, hp, Option.some.injEq] at h
    exact yield_does hq hw (.yielded hq hw hi hp) h
  | suspended f n =>
    simp only [fiberStep, hp] at h
    cases h
  | get f =>
    simp only [fiberStep, hp] at h
    split at h
    · cases h
    · rename_i s hf
      split at h
      · rename_i hr
        cases h
        exact .of_move (.got hq hw hi hp hf hr) rfl
      · cases h
  | finished_ =>
    simp only [fiberStep, hp] at h
    cases h
    exact .of_move (.completed hq hw hi hp) rfl
  | last_yield =>
    simp only [fiberStep, hp, Option.some.injEq] at h
    exact yield_does hq hw (.parked hq hw hi hp) h

/-- A step of `operator()` in the loop of the worker. -/
theorem plain_does {c c' : Config α χ} {q : QueueId} {tq : TaskQueue α} {p : Option FutureId}
    {s : Stage α} {b : Option χ} (hq : c.queues[q]? = some tq)
    (hw : tq.worker = .plain p s) (h : workerStep c q tq b = some c') :
    Does c (.worker q b) c' := by
  simp only [workerStep, hw] at h
  cases hwf : wrapped_function c p s b with
  | none =>
    rw [hwf] at h
    cases h
  | some r =>
    obtain ⟨c₁, r⟩ := r
    rw [hwf] at h
    rcases wrapped_function.spec hwf with ⟨he, rfl, rfl⟩ | ⟨f, v, fut, rfl, rfl, hf, hr, rfl, rfl⟩ |
      ⟨v, x, rfl, rfl, rfl, rfl⟩ | ⟨f, v, fut, rfl, rfl, hf, hr⟩
    · cases h
      exact .of_move (.plain_ended hq hw he) rfl
    · cases h
      exact .of_move (.plain_stored hq hw hf hr) rfl
    · cases h
      exact .of_move (.built hq (.plain hw)) rfl
    · exact Or.inr (.already hq (.plain hw) hf hr)

theorem next_item_does {c : Config α χ} {q : QueueId} {tq : TaskQueue α} {b : Option χ}
    (hq : c.queues[q]? = some tq) (hw : tq.worker = .top) :
    Does c (.worker q b) (c.setQueue q tq.next_item) := by
  unfold TaskQueue.next_item
  split
  · rename_i hj
    exact .of_move (.leave hq hw hj) rfl
  · rename_i hj
    have hj : tq.join_possible = false := by simpa using hj
    split
    · rename_i he
      exact .of_move (.sleep hq hw hj he) rfl
    · rename_i wi rest he
      exact .of_move (.pick hq hw hj he) rfl

theorem workerStep_does {c c' : Config α χ} {q : QueueId} {tq : TaskQueue α} {b : Option χ}
    (hq : c.queues[q]? = some tq) (h : workerStep c q tq b = some c') :
    Does c (.worker q b) c' := by
  cases hw : tq.worker with
  | asleep =>
    simp only [workerStep, hw] at h
    cases h
  | top =>
    simp only [workerStep, hw] at h
    cases h
    exact next_item_does hq hw
  | picked wi =>
    cases wi with
    | empty =>
      simp only [workerStep, hw] at h
      cases h
      exact .of_move (.skip hq hw) rfl
    | task p policy =>
      cases policy with
      | resumable =>
        simp only [workerStep, hw] at h
        exact run_in_new_context_does hq hw h
      | non_resumable =>
        simp only [workerStep, hw] at h
        cases h
        exact .of_move (.plain hq hw) rfl
    | resume_task i n =>
      simp only [workerStep, hw] at h
      cases h
      exact resume_does hq hw
  | plain p s => exact plain_does hq hw h
  | fiber i =>
    simp only [workerStep, hw] at h
    split at h
    · cases h
    · rename_i ctx hi
      exact fiberStep_does hq hw hi h
  | left =>
    simp only [workerStep, hw] at h
    cases h

/-! ## Client code and other threads -/

theorem running_cases {c : Config α χ} {q : QueueId} {tq : TaskQueue α} {p : Option FutureId}
    {r : Option (ContextId × TaskContext α)} (h : running c tq = some (p, r)) :
    Runs c q tq p ∧ ((r = none ∧ tq.worker = .plain p .task_) ∨
      ∃ i ctx, r = some (i, ctx) ∧ tq.worker = .fiber i ∧ c.contexts[i]? = some ctx ∧
        ctx.pc = .wrapped .task_ ∧ p = ctx.func_) := by
  unfold running at h
  split at h
  · rename_i p' hw
    cases h
    exact ⟨.plain hw, Or.inl ⟨rfl, hw⟩⟩
  · rename_i i hw
    split at h
    · rename_i ctx hi
      split at h
      · rename_i hp
        cases h
        exact ⟨.fiber hw hi hp, Or.inr ⟨i, ctx, rfl, hw, hi, hp, rfl⟩⟩
      · cases h
    · cases h
  · cases h

theorem await_does {c c' : Config α χ} {q : QueueId} {tq : TaskQueue α} {f : FutureId}
    (hq : c.queues[q]? = some tq)
    (h : (running c tq).bind (fun r => await c f r.2) = some c') : Does c (.await q f) c' := by
  obtain ⟨⟨p, r⟩, hr, h⟩ := Option.bind_eq_some_iff.mp h
  obtain ⟨-, hr⟩ := running_cases (q := q) hr
  simp only [await] at h
  split at h
  · cases h
  · rename_i s hf
    split at h
    · cases h
      exact .of_move .await_ready rfl
    · rename_i hready
      rcases hr with ⟨rfl, -⟩ | ⟨i, ctx, rfl, hw, hi, hp, -⟩
      · cases h
      · cases h
        exact .of_move (.await hq hw hi hp hf (by simpa using hready)) rfl

theorem returned_does {c c' : Config α χ} {q : QueueId} {tq : TaskQueue α} {v : α}
    (hq : c.queues[q]? = some tq)
    (h : (running c tq).map (fun r => returned c q tq r.1 v r.2) = some c') :
    Does c (.ret q v) c' := by
  obtain ⟨⟨p, r⟩, hr, rfl⟩ := Option.map_eq_some_iff.mp h
  obtain ⟨-, ⟨rfl, hw⟩ | ⟨i, ctx, rfl, hw, hi, hp, rfl⟩⟩ := running_cases (q := q) hr
  · exact .of_move (.ret_plain hq hw) rfl
  · exact .of_move (.ret_fiber hq hw hi hp) rfl

theorem fulfil_does {c c' : Config α χ} {f : FutureId} {r : Except (Option χ) α}
    (hw : f ∉ c.wrapped) (h : fulfil c f r = some c') :
    Does c (.fulfil f r) c' := by
  unfold fulfil at h
  split at h
  · cases h
  · rename_i s hf
    cases r with
    | ok v =>
      simp only at h
      cases hset : set_value s (.ok v) with
      | mk l s' =>
        rcases set_value_impl.spec s s' (.ok v) true l hset with
          ⟨hr, -, rfl⟩ | ⟨hr, ha, rfl⟩ | ⟨hr, x, hv, rfl⟩ | ⟨hr, w, hv, rfl, rfl⟩
        · rw [hset] at h
          cases h
        · cases ha
        · cases hv
        · cases hv
          rw [hset] at h
          cases h
          exact .of_move
            (.fulfilled (t := { s with value_ := some v }) hw hf hr (Or.inl ⟨v, rfl, rfl⟩)) rfl
    | error x =>
      simp only at h
      cases hset : set_exception s x with
      | mk l s' =>
        rcases set_exception.spec s s' x l hset with ⟨hr, rfl⟩ | ⟨hr, rfl, rfl⟩
        · rw [hset] at h
          cases h
        · rw [hset] at h
          cases h
          exact .of_move
            (.fulfilled (t := { s with exception_ := x }) hw hf hr (Or.inr ⟨x, rfl, rfl⟩)) rfl

theorem run_next_does {c c' : Config α χ} {d : Nat}
    (h : run_next c d = some c') : Does c (.run_next d) c' := by
  unfold run_next at h
  split at h
  · rename_i f cs hd
    cases h
    exact .of_move (.run_other hd) rfl
  · rename_i f i n cs hd
    obtain ⟨s, hf, ⟨ha, rfl⟩ | ⟨q, tq, ha, hq, rfl⟩⟩ := pushResume_cases h
    · exact Or.inr (.astray (.setter_null hd hf ha rfl))
    · exact .of_move (.run_push hd hf ha hq) rfl
  · cases h

/-- Every step of a configuration without a fault is a move or goes wrong. -/
theorem step_does {c c' : Config α χ} {e : Event α χ} (h : step c e = some c') :
    c.fault = none ∧ Does c e c' := by
  unfold step at h
  split at h
  · cases h
  rename_i hx
  have hx : c.fault = none := by simpa using hx
  refine ⟨hx, ?_⟩
  cases e with
  | worker q b =>
    simp only at h
    split at h
    · cases h
    · rename_i tq hq
      exact workerStep_does hq h
  | wake q =>
    simp only at h
    split at h
    · cases h
    · rename_i tq hq
      cases h
      exact .of_move (.wake hq) rfl
  | await q f =>
    simp only at h
    split at h
    · cases h
    · rename_i tq hq
      exact await_does hq h
  | ret q v =>
    simp only at h
    split at h
    · cases h
    · rename_i tq hq
      exact returned_does hq h
  | throw_ q x =>
    simp only at h
    split at h
    · cases h
    · rename_i tq hq
      obtain ⟨⟨p, r⟩, hr, rfl⟩ := Option.map_eq_some_iff.mp h
      exact .of_move (.threw hq (running_cases hr).1) rfl
  | push_back thread q policy =>
    simp only at h
    split at h
    · cases h
    · rename_i tq hq
      cases h
      exact .of_move (.push_back hq) rfl
  | push_back_and_forget q empty =>
    simp only at h
    split at h
    · cases h
    · rename_i tq hq
      cases h
      refine .of_move (.forget hq ?_) rfl
      split
      · exact Or.inl rfl
      · exact Or.inr rfl
  | join q =>
    simp only at h
    split at h
    · cases h
    · rename_i tq hq
      cases h
      exact .of_move (.join hq) rfl
  | promise thread =>
    cases h
    exact .of_move (.made (Or.inl ⟨thread, rfl⟩)) rfl
  | then_ =>
    cases h
    exact .of_move (.made (Or.inr (Or.inl rfl))) rfl
  | unwrap f =>
    simp only at h
    split at h
    · cases h
    · cases h
      exact .of_move (.made (Or.inr (Or.inr ⟨f, rfl⟩))) rfl
  | add_continuation f =>
    simp only at h
    split at h
    · cases h
    · rename_i s hf
      obtain ⟨s', hs', rfl⟩ := Option.map_eq_some_iff.mp h
      rcases add_continuation.spec s .other with ⟨hr, ha⟩ | ⟨hr, ha⟩
      · rw [ha] at hs'
        cases hs'
      · rw [ha] at hs'
        cases hs'
        exact .of_move (.other hf hr) rfl
  | fulfil f r =>
    simp only at h
    split at h
    · cases h
    · rename_i hw
      exact fulfil_does hw h
  | run_next d => exact run_next_does h

end ltl.task_queue
