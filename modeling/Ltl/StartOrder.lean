-- The order in which a queue starts its tasks: the order in which they were
-- pushed, with the resume items of suspended tasks always in front.
import Ltl.Mirror

open ltl.future_state slots runs

namespace ltl.task_queue

variable {α χ : Type}

/-! ## The history of one queue -/

def WorkItem.isResume : WorkItem → Bool
  | .resume_task _ _ => true
  | _ => false

/-- A function that is not empty, pushed by `push_back` of any kind. -/
def WorkItem.isTask : WorkItem → Bool
  | .task _ _ => true
  | _ => false

/-- The item that the worker has taken from `queue_` and not acted on. -/
def Worker.hand : Worker α → Option WorkItem
  | .picked wi => some wi
  | _ => none

theorem picked_of_hand {w : Worker α} {wi : WorkItem} (h : w.hand = some wi) : w = .picked wi := by
  cases w with
  | picked x =>
    cases h
    rfl
  | _ => cases h

/-- What was pushed at the back of one queue, what its worker has taken from the front, and what
it has acted on, each in order. -/
structure History where
  pushed : List WorkItem := []
  taken : List WorkItem := []
  started : List WorkItem := []
  deriving DecidableEq, Repr

/-- The item that `push_back` of `q` puts into `queue_`. -/
def submits (q : QueueId) (c : Config α χ) (e : Event α χ) : Option WorkItem :=
  match e with
  | .push_back _ q' policy => if q' = q then some (.task (some c.futures.length) policy) else none
  | .push_back_and_forget q' empty =>
    if q' = q then some (if empty then .empty else .task none .non_resumable) else none
  | _ => none

/-- The item that a step puts into the hand of the worker. -/
def takes (tq tq' : TaskQueue α) : Option WorkItem :=
  match tq.worker.hand with
  | none => tq'.worker.hand
  | some _ => none

/-- The item that the worker acts on in a step: it calls the function, or resumes the context. -/
def starts (tq tq' : TaskQueue α) : Option WorkItem :=
  match tq'.worker.hand with
  | none => tq.worker.hand
  | some _ => none

/-- The history of `q` after a step. -/
def recordHistory (q : QueueId) (c : Config α χ) (e : Event α χ) (c' : Config α χ) (h : History) :
    History :=
  match c.queues[q]?, c'.queues[q]? with
  | some tq, some tq' =>
    { pushed := h.pushed ++ (submits q c e).toList
      taken := h.taken ++ (takes tq tq').toList
      started := h.started ++ (starts tq tq').toList }
  | _, _ => h

/-- Nobody calls `join` of `q`. -/
def NoJoinOf (q : QueueId) (_ : Config α χ) (e : Event α χ) : Prop := ∀ q', e = .join q' → q' ≠ q

/-! ## What a step does to the queue -/

/-- A step of the queues, as `q` sees it: nothing of the below, a resume item in front, an item at
the back, the next item for the worker, or the start of that item. -/
inductive Turn (sub : Option WorkItem) (tq tq' : TaskQueue α) : Prop where
  | idle (hs : sub = none) (hq : tq'.queue_ = tq.queue_) (hw : tq'.worker.hand = tq.worker.hand)
  | resume (i : ContextId) (n : AwaitId) (hs : sub = none)
      (hq : tq'.queue_ = .resume_task i n :: tq.queue_) (hw : tq'.worker.hand = tq.worker.hand)
  | submit (wi : WorkItem) (hs : sub = some wi) (hr : wi.isResume = false)
      (hq : tq'.queue_ = tq.queue_ ++ [wi]) (hw : tq'.worker.hand = tq.worker.hand)
  | take (wi : WorkItem) (hs : sub = none) (hq : tq.queue_ = wi :: tq'.queue_)
      (hw : tq.worker.hand = none) (hw' : tq'.worker.hand = some wi)
  | start (hs : sub = none) (hq : tq'.queue_ = tq.queue_) (hw' : tq'.worker.hand = none)

@[simp] theorem queue_of_notify_one (tq : TaskQueue α) : tq.notify_one.queue_ = tq.queue_ := by
  unfold TaskQueue.notify_one
  split <;> rfl

@[simp] theorem hand_of_notify_one (tq : TaskQueue α) :
    tq.notify_one.worker.hand = tq.worker.hand := by
  unfold TaskQueue.notify_one
  split
  · rename_i hw
    rw [hw]
    rfl
  · rfl

@[simp] theorem queue_of_push_back (tq : TaskQueue α) (wi : WorkItem) :
    (tq.push_back wi).queue_ = tq.queue_ ++ [wi] := by
  unfold TaskQueue.push_back
  dsimp only
  split <;> simp

@[simp] theorem hand_of_push_back (tq : TaskQueue α) (wi : WorkItem) :
    (tq.push_back wi).worker.hand = tq.worker.hand := by
  unfold TaskQueue.push_back
  dsimp only
  split <;> simp

@[simp] theorem queue_of_push_front (tq : TaskQueue α) (wi : WorkItem) :
    (tq.push_front wi).queue_ = wi :: tq.queue_ := by
  unfold TaskQueue.push_front
  dsimp only
  split <;> simp

@[simp] theorem hand_of_push_front (tq : TaskQueue α) (wi : WorkItem) :
    (tq.push_front wi).worker.hand = tq.worker.hand := by
  unfold TaskQueue.push_front
  dsimp only
  split <;> simp

@[simp] theorem queue_of_task_complete (tq : TaskQueue α) (i : ContextId) :
    (tq.task_complete i).queue_ = tq.queue_ := by
  unfold TaskQueue.task_complete
  dsimp only
  split <;> simp

@[simp] theorem hand_of_task_complete (tq : TaskQueue α) (i : ContextId) :
    (tq.task_complete i).worker.hand = tq.worker.hand := by
  unfold TaskQueue.task_complete
  dsimp only
  split <;> simp

/-- The queue of a slot, before the step and after it. -/
theorem queue_cases {c : Config α χ} {ch : Change α χ} {q : QueueId} {tq tq' : TaskQueue α}
    (hf : ch.queues.Fits c.queues) (hadd : ∀ t, ch.queues ≠ .add t) (hq : c.queues[q]? = some tq)
    (hq' : (ch.queues.apply c.queues)[q]? = some tq') :
    (tq' = tq ∧ ∀ old new, ch.queues ≠ .set q old new) ∨ ch.queues = .set q tq tq' := by
  rcases Slot.getElem?_apply hq' with ⟨h, hne⟩ | ⟨old, h⟩ | ⟨h, -⟩
  · rw [hq] at h
    cases h
    exact Or.inl ⟨rfl, hne⟩
  · rw [h] at hf
    have hold : c.queues[q]? = some old := hf
    rw [hq] at hold
    cases hold
    exact Or.inr h
  · exact absurd h (hadd tq')

theorem move_queues {c : Config α χ} {e : Event α χ} {ch : Change α χ} (h : Move c e ch) :
    ch.queues.Keeps (fun _ _ => True) := by
  cases h <;> trivial

theorem move_turn {c : Config α χ} {e : Event α χ} {ch : Change α χ} (h : Move c e ch)
    {q : QueueId} {tq tq' : TaskQueue α} (hj : NoJoinOf q c e)
    (hfor : ∀ q empty, e ≠ .push_back_and_forget q empty) (hq : c.queues[q]? = some tq)
    (hq' : (ch.apply c).queues[q]? = some tq') : Turn (submits q c e) tq tq' := by
  have hadd : ∀ t, ch.queues ≠ .add t := by
    intro t ht
    have hkeep := move_queues h
    rw [ht] at hkeep
    exact hkeep
  rcases queue_cases h.fits.queues hadd hq hq' with ⟨rfl, hne⟩ | hset
  · -- the step is about another queue
    refine .idle ?_ rfl rfl
    cases h with
    | push_back hp =>
      refine if_neg ?_
      rintro rfl
      exact hne _ _ rfl
    | forget hp hwi => exact absurd rfl (hfor _ _)
    | made he => rcases he with ⟨t, rfl⟩ | rfl | ⟨f, rfl⟩ <;> rfl
    | _ => rfl
  · cases h with
    | pick hp hw hjp he =>
      cases hset
      exact .take _ rfl he (by rw [hw]; rfl) rfl
    | skip hp hw =>
      cases hset
      exact .start rfl rfl rfl
    | plain hp hw =>
      cases hset
      exact .start rfl rfl rfl
    | start_new hp hw hc hf =>
      cases hset
      exact .start rfl rfl rfl
    | start_free hp hw hc hf hi hown hpc =>
      cases hset
      exact .start rfl rfl rfl
    | resume hp hw hc hi hown hpc =>
      cases hset
      exact .start rfl rfl rfl
    | pushed hp hw hi hpc hf ha hp' =>
      cases hset
      exact .resume _ _ rfl (queue_of_push_front tq _) (hand_of_push_front tq _)
    | run_push hd hf ha hp =>
      cases hset
      exact .resume _ _ rfl (queue_of_push_front tq _) (hand_of_push_front tq _)
    | push_back hp =>
      cases hset
      exact .submit _ (if_pos rfl) rfl (by simp) (by simp)
    | forget hp hwi => exact absurd rfl (hfor _ _)
    | join hp =>
      cases hset
      exact absurd rfl (hj q rfl)
    | completed hp hw hi hpc =>
      cases hset
      exact .idle rfl (queue_of_task_complete tq _) (hand_of_task_complete tq _)
    | wake hp =>
      cases hset
      exact .idle rfl (queue_of_notify_one tq) (hand_of_notify_one tq)
    | _ =>
      -- the worker goes on with nothing in its hand
      cases hset <;> exact .idle rfl rfl (by simp_all [Worker.hand])

theorem forget_turn {c c' : Config α χ} {q q' : QueueId} {empty : Bool} {tq tq' : TaskQueue α}
    (h : step c (.push_back_and_forget q' empty) = some c') (hq : c.queues[q]? = some tq)
    (hq' : c'.queues[q]? = some tq') : Turn (submits q c (.push_back_and_forget q' empty)) tq tq' := by
  unfold step at h
  split at h
  · cases h
  · dsimp only at h
    split at h
    · cases h
    · rename_i t ht
      cases h
      by_cases hqq : q' = q
      · subst hqq
        rw [hq] at ht
        cases ht
        have hlt := (List.getElem?_eq_some_iff.mp hq).1
        have hnew : (c.queues.set q' (tq.push_back (if empty then .empty else
            .task none .non_resumable)))[q']? = some tq' := hq'
        rw [List.getElem?_set_self hlt] at hnew
        cases hnew
        refine .submit _ (if_pos rfl) ?_ (queue_of_push_back tq _) (hand_of_push_back tq _)
        cases empty <;> rfl
      · have hold : (c.queues.set q' (t.push_back (if empty then .empty else
            .task none .non_resumable)))[q]? = some tq' := hq'
        rw [List.getElem?_set_ne hqq, hq] at hold
        cases hold
        exact .idle (if_neg hqq) rfl rfl

/-- A push never goes wrong. -/
theorem submits_none {c c' : Config α χ} {e : Event α χ} (h : step c e = some c')
    (hf : c'.fault ≠ none) (q : QueueId) : submits q c e = none := by
  have hx := (step_does h).1
  unfold step at h
  split at h
  · cases h
  · cases e with
    | push_back thread q' policy =>
      dsimp only at h
      split at h
      · cases h
      · cases h
        exact absurd hx hf
    | push_back_and_forget q' empty =>
      dsimp only at h
      split at h
      · cases h
      · cases h
        exact absurd hx hf
    | _ => rfl

/-- A step that is no move leaves the queues and the futures, and is the last one. -/
theorem move_or_last {c c' : Config α χ} {e : Event α χ} (ho : Open c)
    (h : step c e = some c') :
    (∃ ch, Move c e ch ∧ c' = ch.apply c) ∨
      (c'.queues = c.queues ∧ c'.futures = c.futures ∧ c'.fault ≠ none) := by
  obtain ⟨hx, hm | hw⟩ := step_does h
  · exact Or.inl hm
  · obtain ⟨hs, hd⟩ := ho.kept hx
    refine Or.inr ?_
    cases astray_of_wrong hs hd hw with
    | resume_other hq hw hbad hfault he =>
      subst he
      exact ⟨rfl, rfl, nofun⟩
    | fiber_null hq hw hi hp hf ha he =>
      subst he
      exact ⟨rfl, rfl, nofun⟩
    | setter_null hd hf ha he =>
      subst he
      exact ⟨rfl, rfl, nofun⟩

/-- The queues of a run are always the same ones. -/
theorem queue_before {c c' : Config α χ} {e : Event α χ} (ho : Open c) (h : step c e = some c')
    {q : QueueId} {tq' : TaskQueue α} (hq' : c'.queues[q]? = some tq') :
    ∃ tq, c.queues[q]? = some tq := by
  rcases move_or_last ho h with ⟨ch, hm, rfl⟩ | ⟨hsame, -, -⟩
  · obtain ⟨tq, hq, -⟩ :=
      Slot.getElem?_keeps (fun _ => trivial) (move_queues hm) hm.fits.queues hq'
    exact ⟨tq, hq⟩
  · exact ⟨tq', by rw [← hsame]; exact hq'⟩

theorem queue_after {c c' : Config α χ} {e : Event α χ} (ho : Open c) (h : step c e = some c')
    {q : QueueId} {tq : TaskQueue α} (hq : c.queues[q]? = some tq) :
    ∃ tq', c'.queues[q]? = some tq' := by
  rcases move_or_last ho h with ⟨ch, hm, rfl⟩ | ⟨hsame, -, -⟩
  · obtain ⟨tq', hq', -⟩ :=
      Slot.keeps_getElem? (fun _ => trivial) (move_queues hm) hm.fits.queues hq
    exact ⟨tq', hq'⟩
  · exact ⟨tq, by rw [hsame]; exact hq⟩

theorem step_turn {c c' : Config α χ} {e : Event α χ} (ho : Open c) (h : step c e = some c')
    {q : QueueId} {tq tq' : TaskQueue α} (hj : NoJoinOf q c e) (hq : c.queues[q]? = some tq)
    (hq' : c'.queues[q]? = some tq') : Turn (submits q c e) tq tq' := by
  by_cases hfor : ∃ q empty, e = .push_back_and_forget q empty
  · obtain ⟨q', empty, rfl⟩ := hfor
    exact forget_turn h hq hq'
  · rcases move_or_last ho h with ⟨ch, hm, rfl⟩ | ⟨hsame, -, hf⟩
    · exact move_turn hm hj (fun q empty he => hfor ⟨q, empty, he⟩) hq hq'
    · rw [hsame, hq] at hq'
      cases hq'
      exact .idle (submits_none h hf q) rfl rfl

/-! ## The order -/

/-- Every item that was pushed at the back is taken, or still in `queue_` behind the resume items,
in the order of the pushes, and what was taken is started in that order, but for what the worker
has in its hand. -/
structure InOrder (tq : TaskQueue α) (h : History) : Prop where
  blocks : ∃ resumes tasks, tq.queue_ = resumes ++ tasks ∧ (∀ wi ∈ resumes, wi.isResume = true) ∧
    (∀ wi ∈ tasks, wi.isResume = false) ∧
    h.pushed = h.taken.filter (fun wi => !wi.isResume) ++ tasks
  hand : h.taken = h.started ++ tq.worker.hand.toList

/-- The next history of a queue. -/
def History.next (h : History) (sub : Option WorkItem) (tq tq' : TaskQueue α) : History where
  pushed := h.pushed ++ sub.toList
  taken := h.taken ++ (takes tq tq').toList
  started := h.started ++ (starts tq tq').toList

theorem takes_of_same {tq tq' : TaskQueue α} (hw : tq'.worker.hand = tq.worker.hand) :
    takes tq tq' = none ∧ starts tq tq' = none := by
  unfold takes starts
  rw [hw]
  cases tq.worker.hand <;> exact ⟨rfl, rfl⟩

theorem takes_of_start (tq : TaskQueue α) {tq' : TaskQueue α} (hw' : tq'.worker.hand = none) :
    takes tq tq' = none ∧ starts tq tq' = tq.worker.hand := by
  unfold takes starts
  rw [hw']
  cases tq.worker.hand <;> exact ⟨rfl, rfl⟩

/-- Nothing is taken or started in a step that leaves the hand of the worker as it is. -/
theorem hand_of_same {tq tq' : TaskQueue α} {h : History} (sub : Option WorkItem)
    (hh : h.taken = h.started ++ tq.worker.hand.toList)
    (hw : tq'.worker.hand = tq.worker.hand) :
    (h.next sub tq tq').taken = h.taken ∧
      (h.next sub tq tq').taken = (h.next sub tq tq').started ++ tq'.worker.hand.toList := by
  obtain ⟨ht, hs⟩ := takes_of_same hw
  unfold History.next
  simp [ht, hs, hw, hh]

theorem turn_inOrder {tq tq' : TaskQueue α} {h : History} {sub : Option WorkItem}
    (hi : InOrder tq h) (ht : Turn sub tq tq') : InOrder tq' (h.next sub tq tq') := by
  obtain ⟨⟨resumes, tasks, hq, hres, htask, hp⟩, hh⟩ := hi
  cases ht with
  | idle hs hq' hw =>
    obtain ⟨htaken, hhand⟩ := hand_of_same sub hh hw
    refine ⟨⟨resumes, tasks, hq'.trans hq, hres, htask, ?_⟩, hhand⟩
    rw [htaken]
    simp [History.next, hs, hp]
  | resume i n hs hq' hw =>
    obtain ⟨htaken, hhand⟩ := hand_of_same sub hh hw
    refine ⟨⟨.resume_task i n :: resumes, tasks, ?_, ?_, htask, ?_⟩, hhand⟩
    · rw [hq', hq]
      rfl
    · intro wi hwi
      rcases List.mem_cons.mp hwi with rfl | hwi
      · rfl
      · exact hres wi hwi
    · rw [htaken]
      simp [History.next, hs, hp]
  | submit wi hs hr hq' hw =>
    obtain ⟨htaken, hhand⟩ := hand_of_same sub hh hw
    refine ⟨⟨resumes, tasks ++ [wi], ?_, hres, ?_, ?_⟩, hhand⟩
    · rw [hq', hq, List.append_assoc]
    · intro x hx
      rcases List.mem_append.mp hx with hx | hx
      · exact htask x hx
      · rw [List.mem_singleton.mp hx]
        exact hr
    · rw [htaken]
      simp [History.next, hs, hp]
  | take wi hs hq' hw hw' =>
    have htakes : takes tq tq' = some wi := by
      unfold takes
      rw [hw, hw']
    have hstarts : starts tq tq' = none := by
      unfold starts
      rw [hw']
    have hhand : (h.next sub tq tq').taken =
        (h.next sub tq tq').started ++ tq'.worker.hand.toList := by
      unfold History.next
      simp [htakes, hstarts, hw', hh, hw]
    refine ⟨?_, hhand⟩
    rw [hq] at hq'
    cases resumes with
    | nil =>
      -- no resume item is left: the next task in order is taken
      have hwi : wi.isResume = false := htask wi (by rw [List.nil_append] at hq'; simp [hq'])
      refine ⟨[], tq'.queue_, rfl, by simp, ?_, ?_⟩
      · intro x hx
        refine htask x ?_
        rw [List.nil_append] at hq'
        rw [hq']
        exact List.mem_cons_of_mem _ hx
      · rw [List.nil_append] at hq'
        simp [History.next, hs, hp, htakes, hwi, hq']
    | cons r rest =>
      rw [List.cons_append] at hq'
      injection hq' with hr hrest
      subst hr
      have hwi := hres r List.mem_cons_self
      refine ⟨rest, tasks, hrest.symm, fun x hx => hres x (List.mem_cons_of_mem _ hx), htask, ?_⟩
      simp [History.next, hs, hp, htakes, hwi]
  | start hs hq' hw' =>
    obtain ⟨htakes, hstarts⟩ := takes_of_start tq hw'
    refine ⟨⟨resumes, tasks, hq'.trans hq, hres, htask, ?_⟩, ?_⟩
    · simp [History.next, hs, hp, htakes]
    · unfold History.next
      simp [htakes, hstarts, hw', hh]

/-! ## Runs -/

/-- What holds of a run with the history of `q`. -/
structure Ordered (q : QueueId) (s : Config α χ × History) : Prop where
  kept : Open s.1
  inOrder : ∀ tq, s.1.queues[q]? = some tq → InOrder tq s.2

theorem record_next {q : QueueId} {c c' : Config α χ} {e : Event α χ} {tq tq' : TaskQueue α}
    (h : History) (hq : c.queues[q]? = some tq) (hq' : c'.queues[q]? = some tq') :
    recordHistory q c e c' h = h.next (submits q c e) tq tq' := by
  unfold recordHistory
  rw [hq, hq']
  rfl

theorem step_ordered {q : QueueId} {s s' : Config α χ × History} {e : Event α χ}
    (ho : Ordered q s) (hj : NoJoinOf q s.1 e)
    (h : recorded step (recordHistory q) s e = some s') : Ordered q s' := by
  obtain ⟨hs, hr⟩ := recorded_eq h
  refine ⟨step_open ho.kept hs, ?_⟩
  intro tq' hq'
  obtain ⟨tq, hq⟩ := queue_before ho.kept hs hq'
  rw [hr, record_next s.2 hq hq']
  exact turn_inOrder (ho.inOrder tq hq) (step_turn ho.kept hs hj hq hq')

theorem init_ordered (q n : Nat) : Ordered q (init α χ n, {}) := by
  refine ⟨init_open n, ?_⟩
  intro tq hq
  have htq := List.eq_of_mem_replicate (List.mem_of_getElem? hq)
  subst htq
  exact ⟨⟨[], [], rfl, by simp, by simp, rfl⟩, rfl⟩

theorem reach_inOrder {q n : Nat} {s : Config α χ × History}
    (h : Reach (recorded step (recordHistory q)) (fun s e => NoJoinOf q s.1 e) (init α χ n, {}) s) :
    Ordered q s :=
  h.invariant (init_ordered q n) (fun _ _ _ ho hj hs => step_ordered ho hj hs)

/-! ## The law -/

/-- The functions of a list of items, without the empty ones and the resume items. -/
def functions (l : List WorkItem) : List WorkItem := l.filter (fun wi => wi.isTask)

theorem functions_append (l l' : List WorkItem) :
    functions (l ++ l') = functions l ++ functions l' := List.filter_append l l'

theorem functions_fresh (l : List WorkItem) :
    functions (l.filter (fun wi => !wi.isResume)) = functions l := by
  unfold functions
  rw [List.filter_filter]
  congr 1
  funext wi
  cases wi <;> rfl

theorem functions_resumes {l : List WorkItem} (h : ∀ wi ∈ l, wi.isResume = true) :
    functions l = [] := by
  unfold functions
  rw [List.filter_eq_nil_iff]
  intro wi hwi
  have := h wi hwi
  cases wi <;> simp_all [WorkItem.isResume, WorkItem.isTask]

/-- What was pushed is what has been started, what the worker is about to start and what `queue_`
holds. -/
theorem InOrder.functions_pushed {tq : TaskQueue α} {h : History} (hi : InOrder tq h) :
    functions h.pushed =
      functions h.started ++ (functions tq.worker.hand.toList ++ functions tq.queue_) := by
  obtain ⟨⟨resumes, tasks, hq, hres, -, hp⟩, hh⟩ := hi
  rw [hp, functions_append, functions_fresh, hh, functions_append, hq, functions_append,
    functions_resumes hres, List.nil_append, List.append_assoc]

/-- A task is taken from a queue that holds no resume item. -/
theorem Turn.no_resume_waits {sub : Option WorkItem} {tq tq' : TaskQueue α} {h : History}
    {wi : WorkItem} (ht : Turn sub tq tq') (hi : InOrder tq h) (htakes : takes tq tq' = some wi)
    (hwi : wi.isTask = true) : ∀ x ∈ tq.queue_, x.isResume = false := by
  obtain ⟨⟨resumes, tasks, hq, hres, htask, -⟩, -⟩ := hi
  cases ht with
  | idle hs hq' hw =>
    rw [(takes_of_same hw).1] at htakes
    cases htakes
  | resume i n hs hq' hw =>
    rw [(takes_of_same hw).1] at htakes
    cases htakes
  | submit x hs hr hq' hw =>
    rw [(takes_of_same hw).1] at htakes
    cases htakes
  | take x hs hq' hw hw' =>
    unfold takes at htakes
    rw [hw, hw'] at htakes
    cases htakes
    cases resumes with
    | nil =>
      rw [hq, List.nil_append]
      exact htask
    | cons r rest =>
      rw [hq, List.cons_append] at hq'
      injection hq' with hr hrest
      subst hr
      have := hres r List.mem_cons_self
      cases r <;> simp_all [WorkItem.isResume, WorkItem.isTask]
  | start hs hq' hw' =>
    rw [(takes_of_start tq hw').1] at htakes
    cases htakes

/-- The queue is a block of resume items and then the tasks that were pushed and not taken yet, in
the order of the pushes. The tasks that were started are the first ones that were pushed, each of
them once, and the worker takes none while a resume item waits. -/
theorem tasks_start_in_order (q n : Nat) (s : Config α χ × History)
    (h : Reach (recorded step (recordHistory q)) (fun s e => NoJoinOf q s.1 e) (init α χ n, {}) s)
    (tq : TaskQueue α) (hq : s.1.queues[q]? = some tq) :
    InOrder tq s.2 ∧
    functions s.2.pushed =
      functions s.2.started ++ (functions tq.worker.hand.toList ++ functions tq.queue_) ∧
    functions s.2.started <+: functions s.2.pushed ∧
    ∀ e s' tq' wi, NoJoinOf q s.1 e → recorded step (recordHistory q) s e = some s' →
      s'.1.queues[q]? = some tq' → takes tq tq' = some wi → wi.isTask = true →
      ∀ x ∈ tq.queue_, x.isResume = false := by
  have ho := reach_inOrder h
  have hi := ho.inOrder tq hq
  refine ⟨hi, hi.functions_pushed, ?_, ?_⟩
  · rw [hi.functions_pushed]
    exact List.prefix_append _ _
  · intro e s' tq' wi hj hs hq' htakes hwi
    have ht := step_turn ho.kept (recorded_eq hs).1 hj hq hq'
    exact ht.no_resume_waits hi htakes hwi

/-- The worker has taken a task when another thread sets what the suspended one awaits. The task is
started while the resume item waits, and before that it is neither started nor in `queue_`. -/
theorem a_task_may_start_before_a_resume :
    ∃ s s' : Config Nat Nat × History, ∃ tq tq',
      Reach (recorded step (recordHistory 0)) (fun s e => NoJoinOf 0 s.1 e) (init Nat Nat 1, {}) s ∧
      s.1.queues[0]? = some tq ∧
      functions s.2.pushed ≠ functions s.2.started ++ functions tq.queue_ ∧
      recorded step (recordHistory 0) s (.worker 0 none) = some s' ∧
      s'.1.queues[0]? = some tq' ∧ starts tq tq' = some (.task (some 2) .non_resumable) ∧
      WorkItem.resume_task 0 0 ∈ tq.queue_ := by
  have hrun : ∃ s s' tq tq', run (recorded step (recordHistory 0)) (init Nat Nat 1, {})
      [.push_back none 0 .resumable, .worker 0 none, .worker 0 none, .worker 0 none,
        .promise (some 0), .push_back none 0 .non_resumable, .await 0 1, .worker 0 none,
        .worker 0 none, .worker 0 none, .fulfil 1 (.ok 5), .run_next 0] = some s ∧
      s.1.queues[0]? = some tq ∧ tq.queue_ = [.resume_task 0 0] ∧
      functions s.2.pushed = [.task (some 0) .resumable, .task (some 2) .non_resumable] ∧
      functions s.2.started = [.task (some 0) .resumable] ∧
      recorded step (recordHistory 0) s (.worker 0 none) = some s' ∧
      s'.1.queues[0]? = some tq' ∧ starts tq tq' = some (.task (some 2) .non_resumable) :=
    ⟨_, _, _, _, rfl, rfl, rfl, rfl, rfl, rfl, rfl, rfl⟩
  obtain ⟨s, s', tq, tq', hs, hq, hqueue, hpushed, hstarted, hstep, hq', hstarts⟩ := hrun
  have hr : Reach (recorded step (recordHistory 0)) (fun s e => NoJoinOf 0 s.1 e)
      (init Nat Nat 1, {}) s := by
    refine reach_of_run _ _ _ ?_ hs
    intro t e he q hq
    subst hq
    simp at he
  refine ⟨s, s', tq, tq', hr, hq, ?_, hstep, hq', hstarts, by simp [hqueue]⟩
  rw [hpushed, hstarted, hqueue]
  decide

/-- A task that has come back from its await goes before the task that was pushed meanwhile. -/
theorem tasks_start_in_order_here :
    ∃ s : Config Nat Nat × History, ∃ tq, s.1.queues[0]? = some tq ∧
      tq.queue_ = [.resume_task 0 0, .task (some 2) .non_resumable] ∧
      functions s.2.started = [.task (some 0) .resumable] ∧ InOrder tq s.2 := by
  have hrun : ∃ s, run (recorded step (recordHistory 0)) (init Nat Nat 1, {})
      [.push_back none 0 .resumable, .worker 0 none, .worker 0 none, .worker 0 none,
        .promise (some 0), .push_back none 0 .non_resumable, .await 0 1, .worker 0 none,
        .worker 0 none, .fulfil 1 (.ok 5), .run_next 0] = some s ∧
      functions s.2.started = [.task (some 0) .resumable] ∧
      ∃ tq, s.1.queues[0]? = some tq ∧
        tq.queue_ = [.resume_task 0 0, .task (some 2) .non_resumable] :=
    ⟨_, rfl, rfl, _, rfl, rfl⟩
  obtain ⟨s, hs, hstarted, tq, hq, hqueue⟩ := hrun
  have hr : Reach (recorded step (recordHistory 0)) (fun s e => NoJoinOf 0 s.1 e)
      (init Nat Nat 1, {}) s := by
    refine reach_of_run _ _ _ ?_ hs
    intro t e he q hq
    subst hq
    simp at he
  exact ⟨s, tq, hq, hqueue, hstarted, (tasks_start_in_order 0 1 s hr tq hq).1⟩

end ltl.task_queue
