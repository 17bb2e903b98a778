-- What the rights, the items and the waiting contexts of an await refer to:
-- they are all about one context, one future and the queue of that context.
import Ltl.Handshake

open ltl.future_state slots counts runs

namespace ltl.task_queue

variable {α χ : Type}

/-! ## What a move keeps -/

theorem Move.log_grows {c : Config α χ} {e : Event α χ} {ch : Change α χ} (h : Move c e ch) :
    ch.log = .keep ∨ ∃ x, ch.log = .add x := by
  cases h <;> first | exact Or.inl rfl | exact Or.inr ⟨_, rfl⟩

theorem Move.mem_log {c : Config α χ} {e : Event α χ} {ch : Change α χ} (h : Move c e ch)
    {x : Entry α χ} (hx : x ∈ c.log) : x ∈ (ch.apply c).log := by
  show x ∈ ch.log.apply c.log
  rcases h.log_grows with hl | ⟨y, hl⟩
  · rw [hl]
    exact hx
  · rw [hl]
    exact List.mem_append_left _ hx

/-- An entry after a move was there before, or is the one that the move adds. -/
theorem Move.of_mem_log {c : Config α χ} {e : Event α χ} {ch : Change α χ} (h : Move c e ch)
    {x : Entry α χ} (hx : x ∈ (ch.apply c).log) : x ∈ c.log ∨ ch.log = .add x := by
  rcases Slot.mem_apply hx with hx | ⟨i, old, hs⟩ | hs
  · exact Or.inl hx
  · rcases h.log_grows with hl | ⟨y, hl⟩ <;>
    · rw [hl] at hs
      cases hs
  · exact Or.inr hs

/-- A context stays in its queue. -/
theorem Move.owner {c : Config α χ} {e : Event α χ} {ch : Change α χ} (h : Move c e ch)
    {i : ContextId} {ctx : TaskContext α} (hi : c.contexts[i]? = some ctx) :
    ∃ ctx', (ch.apply c).contexts[i]? = some ctx' ∧ ctx'.task_queue_ = ctx.task_queue_ := by
  rcases Slot.apply_getElem? h.fits.contexts hi with hi' | ⟨new, hs, hi'⟩
  · exact ⟨ctx, hi', rfl⟩
  · refine ⟨new, hi', ?_⟩
    cases h <;> cases hs <;> rfl

/-- A future keeps its await queue, and a ready one all that it has. -/
theorem Move.future {c : Config α χ} {e : Event α χ} {ch : Change α χ} (h : Move c e ch)
    {f : FutureId} {s : Future α χ} (hf : c.futures[f]? = some s) :
    ∃ s', (ch.apply c).futures[f]? = some s' ∧ s'.await_queue_ = s.await_queue_ ∧
      (ready s = true → s' = s) := by
  rcases Slot.apply_getElem? h.fits.futures hf with hf' | ⟨new, hs, hf'⟩
  · exact ⟨s, hf', rfl, fun _ => rfl⟩
  · refine ⟨new, hf', ?_⟩
    have away : ∀ {t : Future α χ}, ready s = false → ready s = true → t = s := by
      intro t hr hr'
      rw [hr] at hr'
      cases hr'
    cases h with
    | fulfilled hw hf hr hs' =>
      cases hs
      refine ⟨?_, away hr⟩
      rcases hs' with ⟨v, -, rfl⟩ | ⟨x, -, rfl⟩ <;> rfl
    | plain_stored hq hw hf hr =>
      cases hs
      exact ⟨rfl, away hr⟩
    | fiber_stored hq hw hi hp hfunc hf hr =>
      cases hs
      exact ⟨rfl, away hr⟩
    | registered hq hw hi hp hf hr =>
      cases hs
      exact ⟨rfl, away hr⟩
    | other hf hr =>
      cases hs
      exact ⟨rfl, away hr⟩
    | _ => cases hs

/-! ## Links -/

/-- Context `i` belongs to `q`. -/
def Owner (c : Config α χ) (i : ContextId) (q : QueueId) : Prop :=
  ∃ ctx, c.contexts[i]? = some ctx ∧ ctx.task_queue_ = q

/-- The await queue of future `f` is `q`. -/
def AwaitQueue (c : Config α χ) (f : FutureId) (q : QueueId) : Prop :=
  ∃ s, c.futures[f]? = some s ∧ s.await_queue_ = some q

/-- The await queue of `f` is the queue of context `i`. -/
def Affine (c : Config α χ) (i : ContextId) (f : FutureId) : Prop :=
  ∃ q, Owner c i q ∧ AwaitQueue c f q

/-- The item is in the queue, or the worker has it. -/
def TaskQueue.Holds (tq : TaskQueue α) (wi : WorkItem) : Prop :=
  wi ∈ tq.queue_ ∨ tq.worker = .picked wi

/-- The right to push the resume item of await `n` of context `i`, outside of a continuation list:
with the context itself or next in the loop of a setter. -/
inductive Pushes (c : Config α χ) (f : FutureId) (i : ContextId) (n : AwaitId) : Prop where
  | itself {ctx : TaskContext α} (hi : c.contexts[i]? = some ctx) (hp : ctx.pc = .push_front f n)
  | setter {d : Nat} {cs : List Cont} (hd : c.setters[d]? = some (f, .push_front i n :: cs))

structure Linked (c : Config α χ) : Prop where
  affine : ∀ n i f, .awaited n i f ∈ c.log → Affine c i f
  going : ∀ (i : ContextId) ctx f, c.contexts[i]? = some ctx → ctx.pc = .continue_with f →
    Affine c i f
  waiting : ∀ (i : ContextId) ctx f n, c.contexts[i]? = some ctx → ctx.pc.awaits = some (f, n) →
    .awaited n i f ∈ c.log
  registered : ∀ (f : FutureId) s i n, c.futures[f]? = some s →
    .push_front i n ∈ s.continuations_ → .awaited n i f ∈ c.log
  taken : ∀ (d : Nat) f cs i n, c.setters[d]? = some (f, cs) → .push_front i n ∈ cs →
    .awaited n i f ∈ c.log
  item : ∀ (q : QueueId) tq i n, c.queues[q]? = some tq → tq.Holds (.resume_task i n) →
    .pushed n q ∈ c.log ∧ ∃ f, .awaited n i f ∈ c.log
  pushed : ∀ n q, .pushed n q ∈ c.log → ∃ i f, .awaited n i f ∈ c.log ∧ Owner c i q
  resumed : ∀ n q, .resumed n q ∈ c.log → .pushed n q ∈ c.log

theorem Owner.unique {c : Config α χ} {i : ContextId} {q q' : QueueId} (h : Owner c i q)
    (h' : Owner c i q') : q = q' := by
  obtain ⟨ctx, hi, rfl⟩ := h
  obtain ⟨ctx', hi', rfl⟩ := h'
  rw [hi] at hi'
  cases hi'
  rfl

theorem AwaitQueue.unique {c : Config α χ} {f : FutureId} {q q' : QueueId}
    (h : AwaitQueue c f q) (h' : AwaitQueue c f q') : q = q' := by
  obtain ⟨s, hf, ha⟩ := h
  obtain ⟨s', hf', ha'⟩ := h'
  rw [hf] at hf'
  cases hf'
  rw [ha] at ha'
  cases ha'
  rfl

theorem Owner.next {c : Config α χ} {e : Event α χ} {ch : Change α χ} (h : Move c e ch)
    {i : ContextId} {q : QueueId} (ho : Owner c i q) : Owner (ch.apply c) i q := by
  obtain ⟨ctx, hi, rfl⟩ := ho
  exact h.owner hi

theorem Affine.next {c : Config α χ} {e : Event α χ} {ch : Change α χ} (h : Move c e ch)
    {i : ContextId} {f : FutureId} (ha : Affine c i f) : Affine (ch.apply c) i f := by
  obtain ⟨q, ho, s, hf, hq⟩ := ha
  obtain ⟨s', hf', haq, -⟩ := h.future hf
  exact ⟨q, ho.next h, s', hf', haq.trans hq⟩

theorem holds_notify_one {tq : TaskQueue α} {wi : WorkItem} (h : tq.notify_one.Holds wi) :
    tq.Holds wi := by
  unfold TaskQueue.notify_one at h
  split at h
  · rcases h with h | h
    · exact Or.inl h
    · cases h
  · exact h

theorem holds_push_back {tq : TaskQueue α} {wi x : WorkItem} (h : (tq.push_back wi).Holds x) :
    tq.Holds x ∨ x = wi := by
  have hall : TaskQueue.Holds { tq with queue_ := tq.queue_ ++ [wi] } x := by
    unfold TaskQueue.push_back at h
    dsimp only at h
    split at h
    · exact holds_notify_one h
    · exact h
  rcases hall with h | h
  · rcases List.mem_append.mp h with h | h
    · exact Or.inl (Or.inl h)
    · exact Or.inr (List.mem_singleton.mp h)
  · exact Or.inl (Or.inr h)

theorem holds_push_front {tq : TaskQueue α} {wi x : WorkItem} (h : (tq.push_front wi).Holds x) :
    tq.Holds x ∨ x = wi := by
  have hall : TaskQueue.Holds { tq with queue_ := wi :: tq.queue_ } x := by
    unfold TaskQueue.push_front at h
    dsimp only at h
    split at h
    · exact holds_notify_one h
    · exact h
  rcases hall with h | h
  · rcases List.mem_cons.mp h with h | h
    · exact Or.inr h
    · exact Or.inl (Or.inl h)
  · exact Or.inl (Or.inr h)

theorem holds_join {tq : TaskQueue α} {x : WorkItem} (h : tq.join.Holds x) : tq.Holds x := by
  unfold TaskQueue.join at h
  rcases holds_notify_one h with h | h
  · cases h
  · exact Or.inr h

theorem holds_task_complete {tq : TaskQueue α} {i : ContextId} {x : WorkItem}
    (h : (tq.task_complete i).Holds x) : tq.Holds x := by
  have hall : TaskQueue.Holds { tq with
      in_progress_count_ := tq.in_progress_count_ - 1
      free_task_contexts_ := tq.free_task_contexts_ ++ [i] } x := by
    unfold TaskQueue.task_complete at h
    dsimp only at h
    split at h
    · exact holds_notify_one h
    · exact h
  exact hall

/-- Where a resume item comes from. -/
theorem Move.item {c : Config α χ} {e : Event α χ} {ch : Change α χ} (h : Move c e ch)
    {q : QueueId} {tq tq' : TaskQueue α} {i : ContextId} {n : AwaitId}
    (hs : ch.queues = .set q tq tq') (hx : tq'.Holds (.resume_task i n)) :
    tq.Holds (.resume_task i n) ∨
      ∃ f, ch.log = .add (.pushed n q) ∧ AwaitQueue c f q ∧ Pushes c f i n := by
  cases h with
  | pick hq hw hj he =>
    cases hs
    refine Or.inl (Or.inl ?_)
    rw [he]
    rcases hx with hx | hx
    · exact List.mem_cons_of_mem _ hx
    · cases hx
      exact List.mem_cons_self
  | pushed hq hw hi hp hf ha hq' =>
    cases hs
    rcases holds_push_front hx with hx | hx
    · exact Or.inl hx
    · cases hx
      exact Or.inr ⟨_, rfl, ⟨_, hf, ha⟩, .itself hi hp⟩
  | completed hq hw hi hp =>
    cases hs
    exact Or.inl (holds_task_complete hx)
  | wake hq =>
    cases hs
    exact Or.inl (holds_notify_one hx)
  | push_back hq =>
    cases hs
    rcases holds_push_back hx with hx | hx
    · exact Or.inl hx
    · cases hx
  | forget hq hwi =>
    cases hs
    rcases holds_push_back hx with hx | hx
    · exact Or.inl hx
    · rcases hwi with rfl | rfl <;> cases hx
  | join hq =>
    cases hs
    exact Or.inl (holds_join hx)
  | run_push hd hf ha hq =>
    cases hs
    rcases holds_push_front hx with hx | hx
    · exact Or.inl hx
    · cases hx
      exact Or.inr ⟨_, rfl, ⟨_, hf, ha⟩, .setter hd⟩
  | _ =>
    cases hs <;>
    · rcases hx with hx | hx
      · exact Or.inl (Or.inl hx)
      · cases hx

/-- Every future that a task awaits while it is not ready has the queue of the task as its await
queue. -/
def OwnQueue (c : Config α χ) : Event α χ → Prop
  | .await q f => ∀ s, c.futures[f]? = some s → ready s = false → s.await_queue_ = some q
  | _ => True

instance (c : Config α χ) (e : Event α χ) : Decidable (OwnQueue c e) :=
  match e with
  | .await q f =>
    match h : c.futures[f]? with
    | none => isTrue (fun s hs => by rw [h] at hs; cases hs)
    | some s =>
      if hok : ready s = false → s.await_queue_ = some q then
        isTrue (fun t ht => by rw [h] at ht; cases ht; exact hok)
      else isFalse (fun hall => hok (hall s h))
  | .worker _ _ | .wake _ | .ret _ _ | .throw_ _ _ | .push_back _ _ _
  | .push_back_and_forget _ _ | .join _ | .promise _ | .then_ | .unwrap _
  | .add_continuation _ | .fulfil _ _ | .run_next _ => isTrue trivial

section
variable {c : Config α χ} {e : Event α χ} {ch : Change α χ}

theorem Linked.of_pushes (hl : Linked c) {f : FutureId} {i : ContextId} {n : AwaitId}
    (h : Pushes c f i n) : .awaited n i f ∈ c.log := by
  cases h with
  | itself hi hp => exact hl.waiting _ _ _ _ hi (by rw [hp]; rfl)
  | setter hd => exact hl.taken _ _ _ _ _ hd List.mem_cons_self

theorem Linked.owner (hl : Linked c) {n : AwaitId} {i : ContextId} {f : FutureId} {q : QueueId}
    (h : .awaited n i f ∈ c.log) (ha : AwaitQueue c f q) : Owner c i q := by
  obtain ⟨q', ho, ha'⟩ := hl.affine n i f h
  rw [ha.unique ha']
  exact ho

theorem affine_next (hl : Linked c) (h : Move c e ch) {n : AwaitId} {i : ContextId}
    {f : FutureId} (hx : .awaited n i f ∈ (ch.apply c).log) : Affine (ch.apply c) i f := by
  rcases h.of_mem_log hx with hx | hadd
  · exact (hl.affine n i f hx).next h
  · refine Affine.next h ?_
    cases h with
    | registered hq hw hi hp hf hr =>
      cases hadd
      exact hl.going _ _ _ hi hp
    | found_ready hq hw hi hp hf hr =>
      cases hadd
      exact hl.going _ _ _ hi hp
    | _ => cases hadd

theorem going_next (hl : Linked c) (hs : Sound c) (ho : OwnQueue c e) (h : Move c e ch)
    {i : ContextId} {ctx : TaskContext α} {f : FutureId}
    (hi : (ch.apply c).contexts[i]? = some ctx) (hp : ctx.pc = .continue_with f) :
    Affine (ch.apply c) i f := by
  refine Affine.next h ?_
  rcases Slot.getElem?_apply hi with ⟨hi, -⟩ | ⟨old, hset⟩ | ⟨hadd, -⟩
  · exact hl.going i ctx f hi hp
  · cases h with
    | await hq hw hi' hp' hf hr =>
      cases hset
      cases hp
      exact ⟨_, ⟨_, hi', (hs.own hq hw hi').1⟩, _, hf, ho _ hf hr⟩
    | _ =>
      cases hset <;>
      cases hp
  · cases h with
    | start_new hq hw hc hf =>
      cases hadd
      cases hp
    | _ => cases hadd

theorem waiting_next (hl : Linked c) (h : Move c e ch) {i : ContextId} {ctx : TaskContext α}
    {f : FutureId} {n : AwaitId} (hi : (ch.apply c).contexts[i]? = some ctx)
    (hp : ctx.pc.awaits = some (f, n)) : .awaited n i f ∈ (ch.apply c).log := by
  rcases Slot.getElem?_apply hi with ⟨hi, -⟩ | ⟨old, hset⟩ | ⟨hadd, -⟩
  · exact h.mem_log (hl.waiting i ctx f n hi hp)
  · have hmem := fun hx => h.mem_log (x := .awaited n i f) hx
    cases h with
    | registered hq hw hi' hp' hf hr =>
      cases hset
      cases hp
      exact List.mem_append_right _ List.mem_cons_self
    | found_ready hq hw hi' hp' hf hr =>
      cases hset
      cases hp
      exact List.mem_append_right _ List.mem_cons_self
    | pushed hq hw hi' hp' hf ha hq' =>
      cases hset
      cases hp
      exact hmem (hl.waiting _ _ _ _ hi' (by rw [hp']; rfl))
    | yielded hq hw hi' hp' =>
      cases hset
      cases hp
      exact hmem (hl.waiting _ _ _ _ hi' (by rw [hp']; rfl))
    | _ =>
      cases hset <;>
      cases hp
  · cases h with
    | start_new hq hw hc hf =>
      cases hadd
      cases hp
    | _ => cases hadd

theorem registered_next (hl : Linked c) (h : Move c e ch) {f : FutureId} {s : Future α χ}
    {i : ContextId} {n : AwaitId} (hf : (ch.apply c).futures[f]? = some s)
    (hx : .push_front i n ∈ s.continuations_) : .awaited n i f ∈ (ch.apply c).log := by
  rcases Slot.getElem?_apply hf with ⟨hf, -⟩ | ⟨old, hset⟩ | ⟨hadd, -⟩
  · exact h.mem_log (hl.registered f s i n hf hx)
  · have hmem := fun hx => h.mem_log (x := .awaited n i f) hx
    cases h with
    | registered hq hw hi hp hf' hr =>
      cases hset
      rcases List.mem_append.mp hx with hx | hx
      · exact hmem (hl.registered _ _ _ _ hf' hx)
      · cases List.mem_singleton.mp hx
        exact List.mem_append_right _ List.mem_cons_self
    | other hf' hr =>
      cases hset
      rcases List.mem_append.mp hx with hx | hx
      · exact hmem (hl.registered _ _ _ _ hf' hx)
      · cases List.mem_singleton.mp hx
    | _ =>
      cases hset <;>
      cases hx
  · cases h with
    | push_back hq =>
      cases hadd
      cases hx
    | made he =>
      cases hadd
      cases hx
    | _ => cases hadd

theorem taken_next (hl : Linked c) (h : Move c e ch) {d : Nat} {f : FutureId} {cs : List Cont}
    {i : ContextId} {n : AwaitId} (hd : (ch.apply c).setters[d]? = some (f, cs))
    (hx : .push_front i n ∈ cs) : .awaited n i f ∈ (ch.apply c).log := by
  refine h.mem_log ?_
  rcases Slot.getElem?_apply hd with ⟨hd, -⟩ | ⟨old, hset⟩ | ⟨hadd, -⟩
  · exact hl.taken d f cs i n hd hx
  · cases h with
    | run_other hd' =>
      cases hset
      exact hl.taken _ _ _ _ _ hd' (List.mem_cons_of_mem _ hx)
    | run_push hd' hf ha hq =>
      cases hset
      exact hl.taken _ _ _ _ _ hd' (List.mem_cons_of_mem _ hx)
    | _ => cases hset
  · cases h with
    | plain_stored hq hw hf hr =>
      cases hadd
      exact hl.registered _ _ _ _ hf hx
    | fiber_stored hq hw hi hp hfunc hf hr =>
      cases hadd
      exact hl.registered _ _ _ _ hf hx
    | fulfilled hw hf hr hs' =>
      cases hadd
      exact hl.registered _ _ _ _ hf hx
    | _ => cases hadd

theorem item_next (hl : Linked c) (h : Move c e ch) {q : QueueId} {tq : TaskQueue α}
    {i : ContextId} {n : AwaitId} (hq : (ch.apply c).queues[q]? = some tq)
    (hx : tq.Holds (.resume_task i n)) :
    .pushed n q ∈ (ch.apply c).log ∧ ∃ f, .awaited n i f ∈ (ch.apply c).log := by
  rcases Slot.getElem?_apply hq with ⟨hq, -⟩ | ⟨old, hset⟩ | ⟨hadd, -⟩
  · obtain ⟨hp, f, ha⟩ := hl.item q tq i n hq hx
    exact ⟨h.mem_log hp, f, h.mem_log ha⟩
  · have hold : c.queues[q]? = some old := by
      have := h.fits.queues
      rw [hset] at this
      exact this
    rcases h.item hset hx with hx | ⟨f, hlog, -, hp⟩
    · obtain ⟨hp, f, ha⟩ := hl.item q old i n hold hx
      exact ⟨h.mem_log hp, f, h.mem_log ha⟩
    · refine ⟨?_, f, h.mem_log (hl.of_pushes hp)⟩
      show _ ∈ ch.log.apply c.log
      rw [hlog]
      exact List.mem_append_right _ List.mem_cons_self
  · cases h <;> cases hadd

theorem pushed_next (hl : Linked c) (h : Move c e ch) {n : AwaitId} {q : QueueId}
    (hx : .pushed n q ∈ (ch.apply c).log) :
    ∃ i f, .awaited n i f ∈ (ch.apply c).log ∧ Owner (ch.apply c) i q := by
  have hnext : (∃ i f, .awaited n i f ∈ c.log ∧ Owner c i q) →
      ∃ i f, .awaited n i f ∈ (ch.apply c).log ∧ Owner (ch.apply c) i q := by
    rintro ⟨i, f, ha, ho⟩
    exact ⟨i, f, h.mem_log ha, ho.next h⟩
  refine hnext ?_
  rcases h.of_mem_log hx with hx | hadd
  · exact hl.pushed n q hx
  · cases h with
    | pushed hq hw hi hp hf ha hq' =>
      cases hadd
      have hmem := hl.of_pushes (.itself hi hp)
      exact ⟨_, _, hmem, hl.owner hmem ⟨_, hf, ha⟩⟩
    | run_push hd hf ha hq =>
      cases hadd
      have hmem := hl.of_pushes (.setter hd)
      exact ⟨_, _, hmem, hl.owner hmem ⟨_, hf, ha⟩⟩
    | _ => cases hadd

theorem resumed_next (hl : Linked c) (h : Move c e ch) {n : AwaitId} {q : QueueId}
    (hx : .resumed n q ∈ (ch.apply c).log) : .pushed n q ∈ (ch.apply c).log := by
  refine h.mem_log ?_
  rcases h.of_mem_log hx with hx | hadd
  · exact hl.resumed n q hx
  · cases h with
    | resume hq hw hc hi hown hp =>
      cases hadd
      exact (hl.item _ _ _ _ hq (Or.inr hw)).1
    | _ => cases hadd

theorem move_linked (hl : Linked c) (hs : Sound c) (ho : OwnQueue c e) (h : Move c e ch) :
    Linked (ch.apply c) where
  affine _ _ _ hx := affine_next hl h hx
  going _ _ _ hi hp := going_next hl hs ho h hi hp
  waiting _ _ _ _ hi hp := waiting_next hl h hi hp
  registered _ _ _ _ hf hx := registered_next hl h hf hx
  taken _ _ _ _ _ hd hx := taken_next hl h hd hx
  item _ _ _ _ hq hx := item_next hl h hq hx
  pushed _ _ hx := pushed_next hl h hx
  resumed _ _ hx := resumed_next hl h hx

end

theorem init_linked (n : Nat) : Linked (init α χ n) where
  affine _ _ _ hx := nomatch hx
  going _ _ _ hi := nomatch hi
  waiting _ _ _ _ hi := nomatch hi
  registered _ _ _ _ hf := nomatch hf
  taken _ _ _ _ _ hd := nomatch hd
  pushed _ _ hx := nomatch hx
  resumed _ _ hx := nomatch hx
  item q tq i m hq hx := by
    have hq := List.eq_of_mem_replicate (List.mem_of_getElem? hq)
    subst hq
    rcases hx with hx | hx <;> cases hx

end ltl.task_queue
