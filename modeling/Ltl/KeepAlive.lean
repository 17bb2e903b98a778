-- What owns the context of a task (task_context.cpp, task_queue_impl.cpp): its
-- `keep_alive_`, the local `ctx` of `run_in_new_context` and the free contexts of
-- its queue. A resume item and `current_task_context` hold plain pointers.
import Ltl.Scheduler
import Mathlib.Logic.Function.Basic

open slots counts runs

namespace ltl.task_queue

variable {α χ : Type}

/-! ## ContextOwners -/

/-- `keep_alive_` says for each context whether that member is set, and `ctx` is the local variable
of `run_in_new_context` on the main stack of a queue. -/
structure ContextOwners where
  keep_alive_ : ContextId → Bool := fun _ => false
  ctx : QueueId → Option ContextId := fun _ => none

namespace ContextOwners

/-- `run_in_new_context` has a context in `ctx` and calls `reset`. -/
def reset (o : ContextOwners) (q : QueueId) (i : ContextId) : ContextOwners where
  keep_alive_ := Function.update o.keep_alive_ i true
  ctx := Function.update o.ctx q (some i)

/-- The main stack goes on, and `run_in_new_context` returns if it is there. -/
def returned (o : ContextOwners) (q : QueueId) : ContextOwners :=
  { o with ctx := Function.update o.ctx q none }

/-- `self->keep_alive_.reset()` at the end of the loop of `run`. -/
def drop (o : ContextOwners) (i : ContextId) : ContextOwners :=
  { o with keep_alive_ := Function.update o.keep_alive_ i false }

end ContextOwners

/-- What a step of the worker of `q` does to the owners. -/
def recordWorker (c c' : Config α χ) (q : QueueId) (tq : TaskQueue α) (o : ContextOwners) :
    ContextOwners :=
  match tq.worker with
  | .picked (.task _ .resumable) =>
    match (c'.queues[q]?).bind (fun tq' => tq'.worker.onStack) with
    | some i => o.reset q i
    | none => o
  | .fiber i =>
    match c.contexts[i]? with
    | some ctx =>
      match ctx.pc with
      | .yield _ _ => o.returned q
      | .last_yield => (o.drop i).returned q
      | _ => o
    | none => o
  | _ => o

def recordContextOwners (c : Config α χ) (e : Event α χ) (c' : Config α χ) (o : ContextOwners) :
    ContextOwners :=
  match e with
  | .worker q _ =>
    match c.queues[q]? with
    | some tq => recordWorker c c' q tq o
    | none => o
  | _ => o

/-- Some `shared_ptr` points to context `i`, so it is not destroyed. -/
def Owned (c : Config α χ) (o : ContextOwners) (i : ContextId) : Prop :=
  o.keep_alive_ i = true ∨ (∃ q, o.ctx q = some i) ∨
    ∃ (q : QueueId) (tq : TaskQueue α), c.queues[q]? = some tq ∧ i ∈ tq.free_task_contexts_

/-! ## What every step keeps -/

structure OwnersOk (c : Config α χ) (o : ContextOwners) : Prop where
  keep_alive_ : ∀ i, o.keep_alive_ i = true ↔ ∃ ctx, c.contexts[i]? = some ctx ∧ ctx.pc ≠ .parked
  ctx : ∀ q i, o.ctx q = some i → ∃ tq, c.queues[q]? = some tq ∧ tq.worker.onStack = some i
  left : ∀ (q : QueueId) (tq : TaskQueue α), c.queues[q]? = some tq → tq.worker = .left →
    tq.free_task_contexts_ = []

theorem init_ownersOk (n : Nat) : OwnersOk (init α χ n) {} := by
  refine ⟨?_, ?_, ?_⟩
  · intro i
    simp [init]
  · intro q i h
    cases h
  · intro q tq h
    have h := List.eq_of_mem_replicate (List.mem_of_getElem? h)
    subst h
    intro _
    rfl

theorem parked_iff (pc : Pc α) : pc = .parked ↔ pc.runs = false ∧ pc.unfinished = false := by
  cases pc <;> simp [Pc.runs, Pc.unfinished]

/-- The steps that leave the accounts alone leave the owners alone. -/
theorem ownersOk_of_quiet {c : Config α χ} {ch : Change α χ} {o : ContextOwners}
    (hk : OwnersOk c o) (hf : ch.Fits c) (hq : ch.queues.Keeps Same)
    (hi : ch.contexts.Keeps Alike) : OwnersOk (ch.apply c) o := by
  refine ⟨?_, ?_, ?_⟩
  · intro i
    rw [hk.keep_alive_ i]
    constructor
    · rintro ⟨ctx, hctx, hp⟩
      obtain ⟨ctx', hctx', ha⟩ := Slot.keeps_getElem? Alike.refl hi hf.contexts hctx
      refine ⟨ctx', hctx', ?_⟩
      rw [ne_eq, parked_iff] at hp ⊢
      rw [ha.runs, ha.unfinished]
      exact hp
    · rintro ⟨ctx', hctx', hp⟩
      obtain ⟨ctx, hctx, ha⟩ := Slot.getElem?_keeps Alike.refl hi hf.contexts hctx'
      refine ⟨ctx, hctx, ?_⟩
      rw [ne_eq, parked_iff] at hp ⊢
      rw [← ha.runs, ← ha.unfinished]
      exact hp
  · intro q i ho
    obtain ⟨tq, htq, hon⟩ := hk.ctx q i ho
    obtain ⟨tq', htq', hsame⟩ := Slot.keeps_getElem? Same.refl hq hf.queues htq
    exact ⟨tq', htq', hsame.stack.trans hon⟩
  · intro q tq' htq' hl
    obtain ⟨tq, htq, hsame⟩ := Slot.getElem?_keeps Same.refl hq hf.queues htq'
    rw [hsame.free]
    exact hk.left q tq htq (hsame.left hl)

/-- A step of the worker of `q` on the context `i`, or on its main stack. -/
theorem ownersOk_of_own {c c' : Config α χ} {o o' : ContextOwners} (hk : OwnersOk c o) {q : QueueId}
    {tq tq' : TaskQueue α} {i : ContextId} (hq : c.queues[q]? = some tq)
    (hqueues : c'.queues = c.queues.set q tq')
    (hcontexts : ∀ j, j ≠ i → c'.contexts[j]? = c.contexts[j]?)
    (hkeep : ∀ j, j ≠ i → o'.keep_alive_ j = o.keep_alive_ j)
    (hown : o'.keep_alive_ i = true ↔ ∃ ctx, c'.contexts[i]? = some ctx ∧ ctx.pc ≠ .parked)
    (hother : ∀ p, p ≠ q → o'.ctx p = o.ctx p)
    (hctx : ∀ j, o'.ctx q = some j → tq'.worker.onStack = some j)
    (hleft : tq'.worker = .left → tq'.free_task_contexts_ = []) : OwnersOk c' o' := by
  have hlt := (List.getElem?_eq_some_iff.mp hq).1
  refine ⟨?_, ?_, ?_⟩
  · intro j
    by_cases hj : j = i
    · rw [hj]
      exact hown
    · rw [hkeep j hj, hk.keep_alive_ j]
      simp only [hcontexts j hj]
  · intro p j hj
    rw [hqueues]
    by_cases hp : p = q
    · subst hp
      exact ⟨tq', by simp [hlt], hctx j hj⟩
    · rw [hother p hp] at hj
      obtain ⟨t, ht, hon⟩ := hk.ctx p j hj
      exact ⟨t, by rw [List.getElem?_set_ne (Ne.symm hp), ht], hon⟩
  · intro p t ht hl
    rw [hqueues] at ht
    by_cases hp : p = q
    · subst hp
      rw [List.getElem?_set_self hlt] at ht
      cases ht
      exact hleft hl
    · rw [List.getElem?_set_ne (Ne.symm hp)] at ht
      exact hk.left p t ht hl

/-- No local variable of a worker that is on no context holds one. -/
theorem OwnersOk.no_ctx {c : Config α χ} {o : ContextOwners} (hk : OwnersOk c o) {q : QueueId}
    {tq : TaskQueue α} (hq : c.queues[q]? = some tq) (hon : tq.worker.onStack = none)
    (j : ContextId) : o.ctx q ≠ some j := by
  intro hj
  obtain ⟨t, ht, hs⟩ := hk.ctx q j hj
  rw [hq] at ht
  cases ht
  rw [hon] at hs
  cases hs

/-! ## What a step does to the owners -/

section
variable {c c' : Config α χ} {o : ContextOwners} {q : QueueId} {tq : TaskQueue α} {b : Option χ}
  {i : ContextId} {ctx : TaskContext α}

theorem record_main (hq : c.queues[q]? = some tq) (hon : tq.worker.onStack = none)
    (hw : ∀ p, tq.worker ≠ .picked (.task p .resumable)) :
    recordContextOwners c (.worker q b) c' o = o := by
  simp only [recordContextOwners, hq]
  unfold recordWorker
  split
  · rename_i p he
    exact absurd he (hw p)
  · rename_i j he
    rw [he] at hon
    cases hon
  · rfl

theorem record_context (hq : c.queues[q]? = some tq) (hw : tq.worker = .fiber i)
    (hi : c.contexts[i]? = some ctx) (hy : ∀ f n, ctx.pc ≠ .yield f n)
    (hl : ctx.pc ≠ .last_yield) : recordContextOwners c (.worker q b) c' o = o := by
  simp only [recordContextOwners, recordWorker, hq, hw, hi]

theorem record_started {p : Option FutureId} {tq' : TaskQueue α} (hq : c.queues[q]? = some tq)
    (hw : tq.worker = .picked (.task p .resumable)) (hq' : c'.queues[q]? = some tq')
    (hw' : tq'.worker = .fiber i) : recordContextOwners c (.worker q b) c' o = o.reset q i := by
  simp only [recordContextOwners, recordWorker, hq, hw, hq', hw', Option.bind_some, Worker.onStack]

theorem record_yielded {f : FutureId} {n : AwaitId} (hq : c.queues[q]? = some tq)
    (hw : tq.worker = .fiber i) (hi : c.contexts[i]? = some ctx) (hp : ctx.pc = .yield f n) :
    recordContextOwners c (.worker q b) c' o = o.returned q := by
  simp only [recordContextOwners, recordWorker, hq, hw, hi, hp]

theorem record_parked (hq : c.queues[q]? = some tq) (hw : tq.worker = .fiber i)
    (hi : c.contexts[i]? = some ctx) (hp : ctx.pc = .last_yield) :
    recordContextOwners c (.worker q b) c' o = (o.drop i).returned q := by
  simp only [recordContextOwners, recordWorker, hq, hw, hi, hp]

end

theorem getElem?_set_other {β : Type} {l : List β} {i : Nat} {b : β} (j : Nat) (hj : j ≠ i) :
    (l.set i b)[j]? = l[j]? := List.getElem?_set_ne (Ne.symm hj)

/-- The context that is reset is kept by `keep_alive_` and by the local variable. -/
theorem OwnersOk.start {c c' : Config α χ} {o : ContextOwners} (hk : OwnersOk c o) {q : QueueId}
    {tq tq' : TaskQueue α} {i : ContextId} {ctx : TaskContext α} (hq : c.queues[q]? = some tq)
    (hqueues : c'.queues = c.queues.set q tq')
    (hcontexts : ∀ j, j ≠ i → c'.contexts[j]? = c.contexts[j]?)
    (hi : c'.contexts[i]? = some ctx) (hp : ctx.pc = .func_) (hw : tq'.worker = .fiber i) :
    OwnersOk c' (o.reset q i) := by
  refine ownersOk_of_own hk hq hqueues hcontexts ?_ ?_ ?_ ?_ ?_
  · intro j hj
    simp [ContextOwners.reset, hj]
  · simp [ContextOwners.reset, hi, hp]
  · intro p hp
    simp [ContextOwners.reset, hp]
  · intro j hj
    simp only [ContextOwners.reset, Function.update_self, Option.some.injEq] at hj
    rw [hw, ← hj]
    rfl
  · simp [hw]

/-- The worker comes back to its main stack from context `i`, which is `ctx'` then. -/
theorem OwnersOk.leaves {c c' : Config α χ} {o o' : ContextOwners} (hk : OwnersOk c o) {q : QueueId}
    {tq tq' : TaskQueue α} {i : ContextId} {ctx ctx' : TaskContext α}
    (hq : c.queues[q]? = some tq) (hi : c.contexts[i]? = some ctx)
    (hqueues : c'.queues = c.queues.set q tq') (hcontexts : c'.contexts = c.contexts.set i ctx')
    (hkeep : ∀ j, j ≠ i → o'.keep_alive_ j = o.keep_alive_ j)
    (hown : o'.keep_alive_ i = true ↔ ctx'.pc ≠ .parked)
    (hctx : o'.ctx = Function.update o.ctx q none) (hw : tq'.worker = .top) :
    OwnersOk c' o' := by
  have hlt := (List.getElem?_eq_some_iff.mp hi).1
  have hsame : ∀ j, j ≠ i → c'.contexts[j]? = c.contexts[j]? := by
    intro j hj
    rw [hcontexts, List.getElem?_set_ne (Ne.symm hj)]
  refine ownersOk_of_own hk hq hqueues hsame hkeep ?_ ?_ ?_ ?_
  · rw [hown, hcontexts]
    simp [hlt]
  · intro p hp
    simp [hctx, hp]
  · intro j hj
    simp [hctx] at hj
  · simp [hw]

theorem move_ownersOk {c : Config α χ} {e : Event α χ} {ch : Change α χ} {o : ContextOwners}
    (hk : OwnersOk c o) (h : Move c e ch) :
    OwnersOk (ch.apply c) (recordContextOwners c e (ch.apply c) o) := by
  have hfits := h.fits
  cases h with
  | leave hq hw hj =>
    rw [record_main hq (by rw [hw]; rfl) (by simp [hw])]
    refine ownersOk_of_own (i := c.contexts.length) hk hq rfl (fun _ _ => rfl) (fun _ _ => rfl)
      (hk.keep_alive_ _) (fun _ _ => rfl) ?_ (fun _ => rfl)
    intro j hj
    exact absurd hj (hk.no_ctx hq (by rw [hw]; rfl) j)
  | sleep hq hw hj he =>
    rw [record_main hq (by rw [hw]; rfl) (by simp [hw])]
    exact ownersOk_of_quiet hk hfits (Same.worker hw rfl (by simp) (by simp)) trivial
  | @pick q b tq wi rest hq hw hj he =>
    rw [record_main hq (by rw [hw]; rfl) (by simp [hw])]
    exact ownersOk_of_quiet hk hfits
      ((Same.queue_ tq rest).trans (Same.worker hw rfl (by simp) (by simp))) trivial
  | skip hq hw =>
    rw [record_main hq (by rw [hw]; rfl) (by simp [hw])]
    exact ownersOk_of_quiet hk hfits (Same.worker hw rfl (by simp) (by simp)) trivial
  | plain hq hw =>
    rw [record_main hq (by rw [hw]; rfl) (by simp [hw])]
    exact ownersOk_of_quiet hk hfits (Same.worker hw rfl (by simp) (by simp)) trivial
  | @start_new q b tq p hq hw hc hf =>
    have hlt := (List.getElem?_eq_some_iff.mp hq).1
    rw [record_started hq hw (List.getElem?_set_self hlt) rfl]
    refine hk.start hq rfl ?_ List.getElem?_concat_length rfl rfl
    intro j hj
    show (c.contexts ++ [_])[j]? = c.contexts[j]?
    rcases Nat.lt_or_ge j c.contexts.length with hlt | hge
    · exact List.getElem?_append_left hlt
    · have hlast : c.contexts.length < j := Nat.lt_of_le_of_ne hge (Ne.symm hj)
      simp [List.getElem?_append_right hge, Nat.sub_ne_zero_of_lt hlast, hge]
  | start_free hq hw hc hf hi hown hp =>
    have hlt := (List.getElem?_eq_some_iff.mp hq).1
    have hlt' := (List.getElem?_eq_some_iff.mp hi).1
    rw [record_started hq hw (List.getElem?_set_self hlt) rfl]
    exact hk.start hq rfl getElem?_set_other (List.getElem?_set_self hlt') rfl rfl
  | @resume q b tq i n f ctx hq hw hc hi hown hp =>
    have hlt := (List.getElem?_eq_some_iff.mp hi).1
    rw [record_main hq (by rw [hw]; rfl) (by simp [hw])]
    refine ownersOk_of_own hk hq rfl getElem?_set_other (fun _ _ => rfl) ?_ (fun _ _ => rfl) ?_
      (fun hl => nomatch hl)
    · rw [hk.keep_alive_ i, hi]
      simp [Change.apply, hlt, hp]
    · intro j hj
      exact absurd hj (hk.no_ctx hq (by rw [hw]; rfl) j)
  | plain_ended hq hw he =>
    rw [record_main hq (by rw [hw]; rfl) (by simp [hw])]
    exact ownersOk_of_quiet hk hfits (Same.worker hw rfl (by simp) (by simp)) trivial
  | plain_stored hq hw hf hr =>
    rw [record_main hq (by rw [hw]; rfl) (by simp [hw])]
    exact ownersOk_of_quiet hk hfits (Same.worker hw rfl (by simp) (by simp)) trivial
  | began hq hw hi hp =>
    rw [record_context hq hw hi (by simp [hp]) (by simp [hp])]
    exact ownersOk_of_quiet hk hfits trivial (Alike.pc hp rfl rfl)
  | fiber_ended hq hw hi hp he =>
    rw [record_context hq hw hi (by simp [hp]) (by simp [hp])]
    exact ownersOk_of_quiet hk hfits trivial (Alike.pc hp rfl rfl)
  | fiber_stored hq hw hi hp hfunc hf hr =>
    rw [record_context hq hw hi (by simp [hp]) (by simp [hp])]
    exact ownersOk_of_quiet hk hfits trivial (Alike.pc hp rfl rfl)
  | registered hq hw hi hp hf hr =>
    rw [record_context hq hw hi (by simp [hp]) (by simp [hp])]
    exact ownersOk_of_quiet hk hfits trivial (Alike.pc hp rfl rfl)
  | found_ready hq hw hi hp hf hr =>
    rw [record_context hq hw hi (by simp [hp]) (by simp [hp])]
    exact ownersOk_of_quiet hk hfits trivial (Alike.pc hp rfl rfl)
  | pushed hq hw hi hp hf ha hq' =>
    rw [record_context hq hw hi (by simp [hp]) (by simp [hp])]
    exact ownersOk_of_quiet hk hfits (Same.push_front _ _) (Alike.pc hp rfl rfl)
  | yielded hq hw hi hp =>
    rw [record_yielded hq hw hi hp]
    refine hk.leaves hq hi rfl rfl (fun _ _ => rfl) ?_ rfl rfl
    show _ ↔ _
    rw [ContextOwners.returned, hk.keep_alive_, hi]
    simp [hp]
  | got hq hw hi hp hf hr =>
    rw [record_context hq hw hi (by simp [hp]) (by simp [hp])]
    exact ownersOk_of_quiet hk hfits trivial (Alike.pc hp rfl rfl)
  | @completed q b tq i ctx hq hw hi hp =>
    have hlt := (List.getElem?_eq_some_iff.mp hi).1
    have hon : (tq.task_complete i).worker.onStack = some i :=
      (task_complete_same tq i).stack.trans (congrArg Worker.onStack hw)
    rw [record_context hq hw hi (by simp [hp]) (by simp [hp])]
    refine ownersOk_of_own hk hq rfl getElem?_set_other (fun _ _ => rfl) ?_ (fun _ _ => rfl) ?_ ?_
    · rw [hk.keep_alive_ i, hi]
      simp [Change.apply, hlt, hp]
    · intro j hj
      obtain ⟨t, ht, honj⟩ := hk.ctx q j hj
      rw [hq] at ht
      cases ht
      rw [hw] at honj
      rw [hon]
      exact honj
    · intro hl
      rw [hl] at hon
      cases hon
  | @parked q b tq i ctx hq hw hi hp =>
    rw [record_parked hq hw hi hp]
    refine hk.leaves hq hi rfl rfl ?_ ?_ rfl rfl
    · intro j hj
      simp [ContextOwners.returned, ContextOwners.drop, hj]
    · simp [ContextOwners.returned, ContextOwners.drop]
  | await_ready => exact ownersOk_of_quiet hk hfits trivial trivial
  | await hq hw hi hp hf hr => exact ownersOk_of_quiet hk hfits trivial (Alike.pc hp rfl rfl)
  | ret_plain hq hw =>
    exact ownersOk_of_quiet hk hfits (Same.worker hw rfl (by simp) (by simp)) trivial
  | ret_fiber hq hw hi hp => exact ownersOk_of_quiet hk hfits trivial (Alike.pc hp rfl rfl)
  | threw hq hr => exact ownersOk_of_quiet hk hfits trivial trivial
  | built hq hst =>
    cases hst with
    | plain hw =>
      rw [record_main hq (by rw [hw]; rfl) (by simp [hw])]
      exact ownersOk_of_quiet hk hfits trivial trivial
    | fiber hw hi hp =>
      rw [record_context hq hw hi (by simp [hp]) (by simp [hp])]
      exact ownersOk_of_quiet hk hfits trivial trivial
  | wake hq => exact ownersOk_of_quiet hk hfits (Same.notify_one _) trivial
  | push_back hq => exact ownersOk_of_quiet hk hfits (Same.push_back _ _) trivial
  | forget hq hwi => exact ownersOk_of_quiet hk hfits (Same.push_back _ _) trivial
  | join hq => exact ownersOk_of_quiet hk hfits (Same.joined _) trivial
  | made he =>
    have hq : ∀ a, OwnersOk (Change.apply { futures := .add { await_queue_ := a } } c) o :=
      fun a => ownersOk_of_quiet hk ⟨trivial, trivial, trivial, trivial, trivial⟩ trivial trivial
    rcases he with ⟨t, rfl⟩ | rfl | ⟨f, rfl⟩
    · exact hq _
    · exact hq _
    · exact hq _
  | other hf hr => exact ownersOk_of_quiet hk hfits trivial trivial
  | fulfilled hw hf hr hs' => exact ownersOk_of_quiet hk hfits trivial trivial
  | run_other hd => exact ownersOk_of_quiet hk hfits trivial trivial
  | run_push hd hf ha hq => exact ownersOk_of_quiet hk hfits (Same.push_front _ _) trivial

/-! ## Runs -/

/-- The state with its owners: every step is a move, and the owners are as said. -/
def Recorded (s : Config α χ × ContextOwners) : Prop := Good s.1 ∧ OwnersOk s.1 s.2

theorem recorded_reach {n : Nat} {s : Config α χ × ContextOwners}
    (h : Reach (recorded step recordContextOwners) (fun s e => OwnQueue s.1 e) (init α χ n, {})
      s) : Recorded s := by
  refine h.invariant (P := Recorded) ⟨init_good n, init_ownersOk n⟩ ?_
  rintro t e t' ⟨hg, hk⟩ hown hs
  obtain ⟨hs, hrec⟩ := recorded_eq hs
  refine ⟨step_good hg hown hs, ?_⟩
  obtain ⟨ch, hm, he⟩ := step_move hg hs
  rw [hrec, he]
  exact move_ownersOk hk hm

/-- A plain pointer to context `i` is kept for await `n`: in a resume item, in a continuation of a
future or in the loop of a setter. -/
inductive Pointer (c : Config α χ) (i : ContextId) (n : AwaitId) : Prop where
  | item {q : QueueId} {tq : TaskQueue α} (hq : c.queues[q]? = some tq)
      (h : tq.Holds (.resume_task i n))
  | registered {f : FutureId} {s : Future α χ} (hf : c.futures[f]? = some s)
      (h : .push_front i n ∈ s.continuations_)
  | taken {d : Nat} {f : FutureId} {cs : List Cont} (hd : c.setters[d]? = some (f, cs))
      (h : .push_front i n ∈ cs)

/-- The context that a pointer is kept to is still in the await. -/
theorem Pointer.waits {c : Config α χ} (hg : Good c) {i : ContextId} {n : AwaitId}
    (h : Pointer c i n) : ∃ ctx f, c.contexts[i]? = some ctx ∧ ctx.pc.awaits = some (f, n) := by
  have hcount := resuming_count hg.counted n
  have hone := begun_le n c.awaits
  have hof : Cont.of n (.push_front i n) = 1 := if_pos rfl
  cases h with
  | item hq h =>
    obtain ⟨ctx, f, hi, -, hp, -⟩ := item_waits hg.counted hg.linked hq h
    exact ⟨ctx, f, hi, hp⟩
  | @registered f s hf h =>
    have hle := le_total (fun s : Future α χ => total (Cont.of n) s.continuations_) c.futures s
      (List.mem_of_getElem? hf)
    have hle' := le_total (Cont.of n) s.continuations_ _ h
    have hpos : 1 ≤ task_queue.registered c n := by
      unfold task_queue.registered
      omega
    obtain ⟨ctx, hi, hp⟩ := still_waiting hg.counted hg.linked
      (hg.linked.registered f s i n hf h) (by omega)
    exact ⟨ctx, f, hi, hp⟩
  | @taken d f cs hd h =>
    have hle := le_total (fun d : FutureId × List Cont => total (Cont.of n) d.2) c.setters _
      (List.mem_of_getElem? hd)
    have hle' := le_total (Cont.of n) cs _ h
    rw [hof] at hle'
    have hpos : 1 ≤ task_queue.taken c n := Nat.le_trans hle' hle
    obtain ⟨ctx, hi, hp⟩ := still_waiting hg.counted hg.linked
      (hg.linked.taken d f cs i n hd h) (by omega)
    exact ⟨ctx, f, hi, hp⟩

/-- What is said of the contexts. A context is destroyed when it is not owned any more. -/
structure ContextLife (c : Config α χ) (o : ContextOwners) : Prop where
  with_its_queue : ∀ (q : QueueId) (tq : TaskQueue α) (i : ContextId) (ctx : TaskContext α),
    c.queues[q]? = some tq → c.contexts[i]? = some ctx → ctx.task_queue_ = q →
    (Owned c o i ↔ tq.worker ≠ .left)
  destroyed : ∀ (i : ContextId) (ctx : TaskContext α), c.contexts[i]? = some ctx → ¬ Owned c o i →
    ctx.pc = .parked
  current : ∀ (q : QueueId) (tq : TaskQueue α) (i : ContextId), c.queues[q]? = some tq →
    tq.current = some i → Owned c o i
  pointer : ∀ (i : ContextId) (n : AwaitId), Pointer c i n → Owned c o i

/-- A context that is not parked is owned by itself. -/
theorem OwnersOk.owned {c : Config α χ} {o : ContextOwners} (hk : OwnersOk c o) {i : ContextId}
    {ctx : TaskContext α} (hi : c.contexts[i]? = some ctx) (hp : ctx.pc ≠ .parked) :
    Owned c o i := Or.inl ((hk.keep_alive_ i).mpr ⟨ctx, hi, hp⟩)

/-- Once its worker has left, a queue has parked contexts only. -/
theorem parked_of_left {c : Config α χ} (hs : Sound c) {q : QueueId} {tq : TaskQueue α}
    {i : ContextId} {ctx : TaskContext α} (hq : c.queues[q]? = some tq) (hl : tq.worker = .left)
    (hi : c.contexts[i]? = some ctx) (hown : ctx.task_queue_ = q) : ctx.pc = .parked := by
  have hok := hs.queue q tq hq
  have hcount : (total (unfinished q) c.contexts : Int) = 0 := by
    rw [← hok.count_eq]
    exact (hok.left_ok hl).2
  have hle := le_total (unfinished q) c.contexts ctx (List.mem_of_getElem? hi)
  have hunf : ctx.pc.unfinished = false := by
    cases hu : ctx.pc.unfinished with
    | false => rfl
    | true =>
      have hone : unfinished q ctx = 1 := by simp [unfinished, hown, hu]
      omega
  have hrun : ctx.pc.runs = false := by
    cases hr : ctx.pc.runs with
    | false => rfl
    | true =>
      obtain ⟨tq', hq', hon⟩ := hs.context i ctx hi hr
      rw [hown, hq] at hq'
      cases hq'
      rw [hl] at hon
      cases hon
  exact (parked_iff ctx.pc).mpr ⟨hrun, hunf⟩

theorem owned_iff {c : Config α χ} {o : ContextOwners} (hs : Sound c) (hk : OwnersOk c o)
    {q : QueueId} {tq : TaskQueue α} {i : ContextId} {ctx : TaskContext α}
    (hq : c.queues[q]? = some tq) (hi : c.contexts[i]? = some ctx) (hown : ctx.task_queue_ = q) :
    Owned c o i ↔ tq.worker ≠ .left := by
  constructor
  · rintro (hkeep | ⟨p, hp⟩ | ⟨p, t, ht, hfree⟩) hl
    · obtain ⟨x, hx, hne⟩ := (hk.keep_alive_ i).mp hkeep
      rw [hi] at hx
      cases hx
      exact hne (parked_of_left hs hq hl hi hown)
    · -- the worker that has it in `ctx` is on its stack
      obtain ⟨t, ht, hon⟩ := hk.ctx p i hp
      obtain ⟨x, hx, hown', -⟩ := (hs.queue p t ht).on_stack i hon
      rw [hi] at hx
      cases hx
      rw [← hown', hown, hq] at ht
      cases ht
      rw [hl] at hon
      cases hon
    · by_cases htl : t.worker = .left
      · rw [hk.left p t ht htl] at hfree
        cases hfree
      · obtain ⟨x, hx, hown', -⟩ := ((hs.queue p t ht).free_iff htl i).mp hfree
        rw [hi] at hx
        cases hx
        rw [← hown', hown, hq] at ht
        cases ht
        exact htl hl
  · intro hl
    by_cases hp : ctx.pc = .parked
    · refine Or.inr (Or.inr ⟨q, tq, hq, ?_⟩)
      rw [(hs.queue q tq hq).free_iff hl i]
      exact ⟨ctx, hi, hown, by rw [hp]; rfl⟩
    · exact hk.owned hi hp

/-- In every run of tasks that await futures of their own queue, a context is destroyed when the
worker of its queue leaves the loop and not before; it is parked then, and neither a thread nor a
resume item or continuation has a pointer to it. -/
theorem a_context_lives_with_its_queue (n : Nat) (c : Config α χ) (o : ContextOwners)
    (h : Reach (recorded step recordContextOwners) (fun s e => OwnQueue s.1 e) (init α χ n, {})
      (c, o)) : ContextLife c o := by
  obtain ⟨hg, hk⟩ := recorded_reach h
  have hs := hg.sound
  refine ⟨fun q tq i ctx hq hi hown => owned_iff hs hk hq hi hown, ?_, ?_, ?_⟩
  · intro i ctx hi hno
    exact Classical.byContradiction fun hp => hno (hk.owned hi hp)
  · intro q tq i hq hc
    rw [(hs.queue q tq hq).current_eq] at hc
    obtain ⟨ctx, hi, -, hr⟩ := (hs.queue q tq hq).on_stack i hc
    refine hk.owned hi ?_
    intro hp
    rw [hp] at hr
    cases hr
  · intro i m hptr
    obtain ⟨ctx, f, hi, hp⟩ := hptr.waits hg
    refine hk.owned hi ?_
    intro he
    rw [he] at hp
    cases hp

/-- A task that awaits is kept by its context alone, and the next one by the free contexts. -/
theorem a_context_lives_with_its_queue_here : ∃ (c : Config Unit Unit) (o : ContextOwners),
    o.keep_alive_ 0 = true ∧ o.ctx 0 = none ∧ o.keep_alive_ 1 = false ∧ ContextLife c o := by
  have hrun : ∃ c o, runOk (recorded step recordContextOwners) (fun s e => OwnQueue s.1 e)
      (init Unit Unit 1, ({} : ContextOwners))
      [.push_back none 0 .resumable, .worker 0 none, .worker 0 none, .worker 0 none,
        .promise (some 0), .await 0 1, .worker 0 none, .worker 0 none,
        .push_back none 0 .resumable, .worker 0 none, .worker 0 none, .worker 0 none,
        .ret 0 (), .worker 0 none, .worker 0 none, .worker 0 none, .worker 0 none] = some (c, o) ∧
      o.keep_alive_ 0 = true ∧ o.ctx 0 = none ∧ o.keep_alive_ 1 = false :=
    ⟨_, _, rfl, rfl, rfl, rfl⟩
  obtain ⟨c, o, hrun, h0, hctx, h1⟩ := hrun
  exact ⟨c, o, h0, hctx, h1, a_context_lives_with_its_queue 1 c o (reach_of_runOk _ _ _ hrun)⟩

end ltl.task_queue
