-- The future of a submitted function: what it holds once the function has
-- returned, and what an exception does to the program.
import Ltl.Await

open ltl.future_state slots counts runs

namespace ltl.task_queue

variable {α χ : Type}

/-! ## Returned values -/

/-- Future `f` holds the value `v`. -/
def Stored (c : Config α χ) (f : FutureId) (v : α) : Prop :=
  ∃ s, c.futures[f]? = some s ∧ s.value_ = some v

/-- `set_value(v)` on the promise `f` is what some worker does next. -/
inductive Storing (c : Config α χ) (f : FutureId) (v : α) : Prop where
  | plain {q : QueueId} {tq : TaskQueue α} (hq : c.queues[q]? = some tq)
      (hw : tq.worker = .plain (some f) (.set_value v))
  | fiber {q : QueueId} {tq : TaskQueue α} {i : ContextId} {ctx : TaskContext α}
      (hq : c.queues[q]? = some tq) (hw : tq.worker = .fiber i) (hi : c.contexts[i]? = some ctx)
      (hp : ctx.pc = .wrapped (.set_value v)) (hf : ctx.func_ = some f)

section
variable {c : Config α χ} {e : Event α χ} {ch : Change α χ}

theorem Stored.next (h : Move c e ch) {f : FutureId} {v : α} (hs : Stored c f v) :
    Stored (ch.apply c) f v := by
  obtain ⟨s, hf, hv⟩ := hs
  obtain ⟨s', hf', -, hsame⟩ := h.future hf
  refine ⟨s', hf', ?_⟩
  have hr : ready s = true := by
    unfold ready
    rw [hv]
    rfl
  rw [hsame hr]
  exact hv

theorem worker_notify_one {tq : TaskQueue α} (h : tq.worker ≠ .asleep) :
    tq.notify_one.worker = tq.worker := by
  unfold TaskQueue.notify_one
  split
  · rename_i hw
    exact absurd hw h
  · rfl

theorem worker_push_back {tq : TaskQueue α} (h : tq.worker ≠ .asleep) (wi : WorkItem) :
    (tq.push_back wi).worker = tq.worker := by
  unfold TaskQueue.push_back
  dsimp only
  split
  · exact worker_notify_one h
  · rfl

theorem worker_push_front {tq : TaskQueue α} (h : tq.worker ≠ .asleep) (wi : WorkItem) :
    (tq.push_front wi).worker = tq.worker := by
  unfold TaskQueue.push_front
  dsimp only
  split
  · exact worker_notify_one h
  · rfl

theorem worker_join {tq : TaskQueue α} (h : tq.worker ≠ .asleep) :
    tq.join.worker = tq.worker := by
  unfold TaskQueue.join
  exact worker_notify_one h

theorem worker_task_complete {tq : TaskQueue α} (h : tq.worker ≠ .asleep) (i : ContextId) :
    (tq.task_complete i).worker = tq.worker := by
  unfold TaskQueue.task_complete
  dsimp only
  split
  · exact worker_notify_one h
  · rfl

/-- The steps of its own that bring the worker of `q` from its place in the loop to another one. -/
inductive WorkerMove (c : Config α χ) (ch : Change α χ) (q : QueueId) (tq : TaskQueue α) :
    Worker α → Prop where
  | top {w} (hw : tq.worker = .top) : WorkerMove c ch q tq w
  | skip (hw : tq.worker = .picked .empty) : WorkerMove c ch q tq .top
  | plain {p} (hw : tq.worker = .picked (.task p .non_resumable)) :
      WorkerMove c ch q tq (.plain p .task_)
  | start {p i ctx} (hw : tq.worker = .picked (.task p .resumable))
      (hi : (ch.apply c).contexts[i]? = some ctx) (hown : ctx.task_queue_ = q)
      (hfunc : ctx.func_ = p) (hp : ctx.pc = .func_) : WorkerMove c ch q tq (.fiber i)
  | resume {i n} (hw : tq.worker = .picked (.resume_task i n)) : WorkerMove c ch q tq (.fiber i)
  | ended {p s} (hw : tq.worker = .plain p s) (he : Ended c p s) : WorkerMove c ch q tq .top
  | stored {f v s d} (hw : tq.worker = .plain (some f) (.set_value v))
      (hs : ch.futures = .set f s { s with value_ := some v, continuations_ := [] }) :
      WorkerMove c ch q tq (.plain (some f) (.drain d))
  | returned {p v} (hw : tq.worker = .plain p .task_) :
      WorkerMove c ch q tq (.plain p (.set_value v))
  | yielded {i ctx} (hw : tq.worker = .fiber i) (hi : c.contexts[i]? = some ctx)
      (hp : (∃ f n, ctx.pc = .yield f n) ∨ ctx.pc = .last_yield) : WorkerMove c ch q tq .top

/-- A worker that is awake stays where it is, or goes on by itself. -/
theorem worker_next (h : Move c e ch) {q : QueueId} {tq tq' : TaskQueue α}
    (hne : tq.worker ≠ .asleep) (hs : ch.queues = .set q tq tq') :
    tq'.worker = tq.worker ∨ WorkerMove c ch q tq tq'.worker := by
  cases h with
  | leave hq hw hj =>
    cases hs
    exact Or.inr (.top hw)
  | sleep hq hw hj he =>
    cases hs
    exact Or.inr (.top hw)
  | pick hq hw hj he =>
    cases hs
    exact Or.inr (.top hw)
  | skip hq hw =>
    cases hs
    exact Or.inr (.skip hw)
  | plain hq hw =>
    cases hs
    exact Or.inr (.plain hw)
  | start_new hq hw hc hf =>
    cases hs
    exact Or.inr (.start hw List.getElem?_concat_length rfl rfl rfl)
  | start_free hq hw hc hf hi hown hp =>
    cases hs
    refine Or.inr (.start hw (List.getElem?_set_self (List.getElem?_eq_some_iff.mp hi).1) ?_ rfl rfl)
    exact hown
  | resume hq hw hc hi hown hp =>
    cases hs
    exact Or.inr (.resume hw)
  | plain_ended hq hw he =>
    cases hs
    exact Or.inr (.ended hw he)
  | plain_stored hq hw hf hr =>
    cases hs
    exact Or.inr (.stored hw rfl)
  | ret_plain hq hw =>
    cases hs
    exact Or.inr (.returned hw)
  | yielded hq hw hi hp =>
    cases hs
    exact Or.inr (.yielded hw hi (Or.inl ⟨_, _, hp⟩))
  | parked hq hw hi hp =>
    cases hs
    exact Or.inr (.yielded hw hi (Or.inr hp))
  | completed hq hw hi hp =>
    cases hs
    exact Or.inl (worker_task_complete hne _)
  | pushed hq hw hi hp hf ha hq' =>
    cases hs
    exact Or.inl (worker_push_front hne _)
  | run_push hd hf ha hq =>
    cases hs
    exact Or.inl (worker_push_front hne _)
  | push_back hq =>
    cases hs
    exact Or.inl (worker_push_back hne _)
  | forget hq hwi =>
    cases hs
    exact Or.inl (worker_push_back hne _)
  | wake hq =>
    cases hs
    exact Or.inl (worker_notify_one hne)
  | join hq =>
    cases hs
    exact Or.inl (worker_join hne)
  | _ => cases hs

/-- What is set in a step is stored after it. -/
theorem stored_of_set (h : Move c e ch) {f : FutureId} {s : Future α χ} {v : α}
    (hs : ch.futures = .set f s { s with value_ := some v, continuations_ := [] }) :
    Stored (ch.apply c) f v := by
  have hf : c.futures[f]? = some s := by
    have := h.fits.futures
    rw [hs] at this
    exact this
  refine ⟨{ s with value_ := some v, continuations_ := [] }, ?_, rfl⟩
  show (ch.futures.apply c.futures)[f]? = _
  rw [hs]
  exact List.getElem?_set_self (List.getElem?_eq_some_iff.mp hf).1

/-- A worker that stores the value of a plain function does nothing else. -/
theorem plain_goes_on (h : Move c e ch) {q : QueueId} {tq tq' : TaskQueue α} {f : FutureId}
    {v : α} (hw : tq.worker = .plain (some f) (.set_value v)) (hs : ch.queues = .set q tq tq') :
    tq'.worker = tq.worker ∨ Stored (ch.apply c) f v := by
  rcases worker_next h (by rw [hw]; simp) hs with hsame | hmove
  · exact Or.inl hsame
  · generalize tq'.worker = w at hmove
    cases hmove with
    | stored hw' hset =>
      rw [hw] at hw'
      cases hw'
      exact Or.inr (stored_of_set h hset)
    | ended hw' he =>
      rw [hw] at hw'
      cases hw'
      cases he
    | _ => simp_all only [reduceCtorEq, Worker.plain.injEq, and_false]

/-- A worker on the stack of a context that stores a value stays there. -/
theorem fiber_goes_on (h : Move c e ch) {q : QueueId} {tq tq' : TaskQueue α} {i : ContextId}
    {ctx : TaskContext α} {v : α} (hw : tq.worker = .fiber i) (hi : c.contexts[i]? = some ctx)
    (hp : ctx.pc = .wrapped (.set_value v)) (hs : ch.queues = .set q tq tq') :
    tq'.worker = tq.worker := by
  rcases worker_next h (by rw [hw]; simp) hs with hsame | hmove
  · exact hsame
  · generalize tq'.worker = w at hmove
    cases hmove with
    | yielded hw' hi' hp' =>
      rw [hw] at hw'
      cases hw'
      rw [hi] at hi'
      cases hi'
      rw [hp] at hp'
      rcases hp' with ⟨f, n, hp'⟩ | hp' <;> cases hp'
    | _ => simp_all only [reduceCtorEq]

/-- The context goes on only by storing its value. -/
theorem context_goes_on (h : Move c e ch) {i : ContextId} {ctx ctx' : TaskContext α}
    {f : FutureId} {v : α} (hp : ctx.pc = .wrapped (.set_value v)) (hf : ctx.func_ = some f)
    (hs : ch.contexts = .set i ctx ctx') : Stored (ch.apply c) f v := by
  have hstored := fun {s} => stored_of_set (f := f) (s := s) (v := v) h
  cases h with
  | fiber_stored hq hw hi hp' hfunc hf' hr =>
    cases hs
    rw [hp] at hp'
    cases hp'
    rw [hf] at hfunc
    cases hfunc
    exact hstored rfl
  | fiber_ended hq hw hi hp' he =>
    cases hs
    rw [hp] at hp'
    cases hp'
    rw [hf] at he
    cases he
  | _ => cases hs <;> simp_all only [reduceCtorEq, Pc.wrapped.injEq]

theorem Storing.next (h : Move c e ch) {f : FutureId} {v : α} (hs : Storing c f v) :
    Stored (ch.apply c) f v ∨ Storing (ch.apply c) f v := by
  cases hs with
  | plain hq hw =>
    rcases Slot.apply_getElem? h.fits.queues hq with hq' | ⟨new, hset, hq'⟩
    · exact Or.inr (.plain hq' hw)
    · rcases plain_goes_on h hw hset with hw' | hst
      · exact Or.inr (.plain hq' (hw'.trans hw))
      · exact Or.inl hst
  | fiber hq hw hi hp hf =>
    rcases Slot.apply_getElem? h.fits.contexts hi with hi' | ⟨new, hset, -⟩
    · rcases Slot.apply_getElem? h.fits.queues hq with hq' | ⟨new, hset, hq'⟩
      · exact Or.inr (.fiber hq' hw hi' hp hf)
      · exact Or.inr (.fiber hq' ((fiber_goes_on h hw hi hp hset).trans hw) hi' hp hf)
    · exact Or.inl (context_goes_on h hp hf hset)

/-- What has returned is stored, or is about to be. -/
theorem returned_next (hr : ∀ f v, .returned (some f) v ∈ c.log → Stored c f v ∨ Storing c f v)
    (h : Move c e ch) {f : FutureId} {v : α} (hx : .returned (some f) v ∈ (ch.apply c).log) :
    Stored (ch.apply c) f v ∨ Storing (ch.apply c) f v := by
  rcases h.of_mem_log hx with hx | hadd
  · rcases hr f v hx with hs | hs
    · exact Or.inl (hs.next h)
    · exact hs.next h
  · cases h with
    | ret_plain hq hw =>
      cases hadd
      exact Or.inr (.plain (List.getElem?_set_self (List.getElem?_eq_some_iff.mp hq).1) rfl)
    | ret_fiber hq hw hi hp =>
      injection hadd with hentry
      injection hentry with hfunc hv
      subst hv
      exact Or.inr
        (.fiber hq hw (List.getElem?_set_self (List.getElem?_eq_some_iff.mp hi).1) rfl hfunc)
    | _ => cases hadd

/-- An exception has got out of a task exactly when the program was terminated. -/
theorem threw_next (hx : c.fault = none) (ht : ∀ p x, .threw p x ∉ c.log) (h : Move c e ch) :
    (∃ p x, .threw p x ∈ (ch.apply c).log) ↔ (ch.apply c).fault = some .terminated := by
  show _ ↔ ch.fault.or c.fault = some .terminated
  rw [hx, Option.or_none]
  constructor
  · rintro ⟨p, x, hmem⟩
    rcases h.of_mem_log hmem with hmem | hadd
    · exact absurd hmem (ht p x)
    · cases h with
      | threw hq hr => rfl
      | built hq hs => rfl
      | _ => cases hadd
  · intro hf
    cases h with
    | threw hq hr => exact ⟨_, _, List.mem_append_right _ List.mem_cons_self⟩
    | built hq hs => exact ⟨_, _, List.mem_append_right _ List.mem_cons_self⟩
    | _ => cases hf

end

/-! ## The law of mirrors -/

/-- The future of every function mirrors it, no exception gets out of a function to the loop of the
worker or to the entry of a context, which would terminate the program, and the other functions
still run after it. -/
structure Mirrors (c : Config α χ) : Prop where
  value : ∀ f v, .returned (some f) v ∈ c.log → Stored c f v ∨ Storing c f v
  exception : ∀ (f : FutureId) x, .threw (some f) x ∈ c.log →
    ∃ s, c.futures[f]? = some s ∧ s.exception_ = some x
  contained : c.fault ≠ some .terminated
  others : ∀ p x, .threw p x ∈ c.log → ∃ e c', step c e = some c'

/-- What holds of the functions in every configuration that is reached. -/
structure Told (c : Config α χ) : Prop where
  value : ∀ f v, .returned (some f) v ∈ c.log → Stored c f v ∨ Storing c f v
  threw : (∃ p x, .threw p x ∈ c.log) ↔ c.fault = some .terminated

/-- What is about to be stored is so after a step that leaves the queues and those contexts. -/
theorem Storing.same {c c' : Config α χ} {f : FutureId} {v : α} (hs : Storing c f v)
    (hq : c'.queues = c.queues)
    (hi : ∀ (i : ContextId) ctx, c.contexts[i]? = some ctx → ctx.pc = .wrapped (.set_value v) →
      c'.contexts[i]? = some ctx) : Storing c' f v := by
  cases hs with
  | plain hq' hw => exact .plain (by rw [hq]; exact hq') hw
  | fiber hq' hw hi' hp hf => exact .fiber (by rw [hq]; exact hq') hw (hi _ _ hi' hp) hp hf

/-- A step that goes astray is the last one, and no function has ended in it. -/
theorem astray_told {c c' : Config α χ} (hx : c.fault = none) (ht : Told c)
    (h : Astray c c') : Told c' ∧ c'.fault ≠ none := by
  have hno : ∀ p x, .threw p x ∉ c.log := by
    intro p x hmem
    have := ht.threw.mp ⟨p, x, hmem⟩
    rw [hx] at this
    cases this
  have htold : c'.futures = c.futures →
      (∀ f v, .returned (some f) v ∈ c'.log → .returned (some f) v ∈ c.log) →
      (∀ p x, .threw p x ∈ c'.log → .threw p x ∈ c.log) →
      (∀ f v, Storing c f v → Storing c' f v) → c'.fault ≠ some .terminated → Told c' := by
    intro hfut hret hthrew hst hf
    refine ⟨?_, fun ⟨p, x, hmem⟩ => absurd (hthrew p x hmem) (hno p x), fun h => absurd h hf⟩
    intro f v hmem
    rcases ht.value f v (hret f v hmem) with ⟨s, hs, hv⟩ | hs
    · exact Or.inl ⟨s, by rw [hfut]; exact hs, hv⟩
    · exact Or.inr (hst f v hs)
  cases h with
  | resume_other hq hw hbad hfault he =>
    subst he
    have hlog : ∀ {x y : Entry α χ}, x ≠ y → x ∈ c.log ++ [y] → x ∈ c.log := by
      intro x y hne hmem
      rcases List.mem_append.mp hmem with hmem | hmem
      · exact hmem
      · exact absurd (List.mem_singleton.mp hmem) hne
    refine ⟨htold rfl (fun _ _ => hlog nofun) (fun _ _ => hlog nofun) ?_ ?_, nofun⟩
    · intro f v hs
      exact hs.same rfl (fun _ _ hi _ => hi)
    · rcases hfault with rfl | rfl <;> nofun
  | @fiber_null q tq i ctx f n s hq hw hi hp hf ha he =>
    subst he
    refine ⟨htold rfl (fun _ _ => id) (fun _ _ => id) ?_ nofun, nofun⟩
    intro g v hs
    -- the context that pushes stores no value
    refine hs.same rfl (fun j x hj hpc => ?_)
    refine (List.getElem?_set_ne ?_).trans hj
    rintro rfl
    rw [hi] at hj
    cases hj
    rw [hp] at hpc
    cases hpc
  | setter_null hd hf ha he =>
    subst he
    refine ⟨htold rfl (fun _ _ => id) (fun _ _ => id) ?_ nofun, nofun⟩
    intro f v hs
    exact hs.same rfl (fun _ _ hi _ => hi)

/-- What is kept through every step, whatever the tasks await. -/
structure Open (c : Config α χ) : Prop where
  kept : c.fault = none → Sound c ∧ Held c
  told : Told c

theorem init_open (n : Nat) : Open (init α χ n) := by
  refine ⟨fun _ => ⟨init_sound n, init_held n⟩, fun _ _ hx => (nomatch hx), ?_⟩
  constructor
  · rintro ⟨p, x, hx⟩
    cases hx
  · intro hf
    cases hf

theorem step_open {c c' : Config α χ} {e : Event α χ} (ho : Open c) (h : step c e = some c') :
    Open c' := by
  obtain ⟨hx, hdoes⟩ := step_does h
  obtain ⟨hs, hd⟩ := ho.kept hx
  rcases hdoes with ⟨ch, hm, rfl⟩ | hw
  · refine ⟨fun _ => ⟨move_sound hs hm, move_held hd hm⟩, ?_, ?_⟩
    · intro f v hv
      exact returned_next ho.told.value hm hv
    · refine threw_next hx ?_ hm
      intro p x hmem
      have := ho.told.threw.mp ⟨p, x, hmem⟩
      rw [hx] at this
      cases this
  · obtain ⟨ht, hf⟩ := astray_told hx ho.told (astray_of_wrong hs hd hw)
    exact ⟨fun h => absurd h hf, ht⟩

/-- The futures mirror the functions exactly when no function throws. -/
theorem mirrors_iff (n : Nat) (c : Config α χ) (h : Reach step anyEvent (init α χ n) c) :
    Mirrors c ↔ ∀ p x, .threw p x ∉ c.log := by
  have ht := (h.invariant (init_open n) (fun _ _ _ ho _ hs => step_open ho hs)).told
  constructor
  · intro hm p x hx
    exact hm.contained (ht.threw.mp ⟨p, x, hx⟩)
  · intro hno
    refine ⟨ht.value, ?_, ?_, ?_⟩
    · intro f x hx
      exact absurd hx (hno (some f) x)
    · intro hf
      obtain ⟨p, x, hx⟩ := ht.threw.mpr hf
      exact hno p x hx
    · intro p x hx
      exact absurd hx (hno p x)

end ltl.task_queue
