-- The fates of the writes of a socket: `on_write` resolves the first request
-- of `write_queue_`, which is the right one as long as the queue mirrors the
-- requests that libuv has accepted.
import Ltl.Socket

open runs ltl.future_state lio.task_loop

namespace lio.socket.impl

/-! ## The queue of the requests -/

/-- What holds in every run of the requests that were made and those that are still to be made:
`write_queue_` has the last ones that `uv_write` was called for, each with a promise that is not
set, and all of the accepted ones are among them. -/
structure Sound (w : Writes) (queued : List WriteRequest) : Prop where
  sequence : w.submitted ++ queued = w.posted
  numbered : w.posted.map (·.promise) = List.range w.returned.length
  last : w.write_queue_ <:+ w.submitted
  front : w.accepted.Sublist (w.write_queue_.map (·.promise))
  waiting : ∀ q ∈ queued, w.returned[q.promise]? = some {}
  pending : ∀ q ∈ w.write_queue_, ∃ fate, w.returned[q.promise]? = some ⟨some {}, fate⟩
  set : ∀ q ∈ w.submitted, q ∈ w.write_queue_ ∨
    ∃ r, w.returned[q.promise]? = some r ∧ r.outcome ≠ none

theorem init_sound : Sound {} [] :=
  ⟨rfl, rfl, List.suffix_refl _, List.Sublist.refl _, nofun, nofun, nofun⟩

section
variable {w : Writes} {queued : List WriteRequest} (h : Sound w queued)
include h

theorem Sound.nodup : ((w.submitted ++ queued).map (·.promise)).Nodup := by
  rw [h.sequence, h.numbered]
  exact List.nodup_range

/-- A request that was made is for another call than one that is to be made. -/
theorem Sound.ne_waiting {q r : WriteRequest} (hq : q ∈ w.submitted) (hr : r ∈ queued) :
    q.promise ≠ r.promise := by
  have hn := h.nodup
  rw [List.map_append, List.nodup_append] at hn
  exact hn.2.2 _ (List.mem_map_of_mem hq) _ (List.mem_map_of_mem hr)

theorem Sound.queue_nodup : (w.write_queue_.map (·.promise)).Nodup := by
  have hn := h.nodup
  rw [List.map_append, List.nodup_append] at hn
  exact (h.last.sublist.map _).nodup hn.1

theorem Sound.queue_submitted {q : WriteRequest} (hq : q ∈ w.write_queue_) : q ∈ w.submitted :=
  h.last.subset hq

/-- An accepted request is in `write_queue_`. -/
theorem Sound.accepted_queued {call : Nat} (hc : call ∈ w.accepted) :
    ∃ q ∈ w.write_queue_, q.promise = call :=
  List.mem_map.mp (h.front.subset hc)

end

/-- A call that returns has posted its request. -/
theorem post_sound {w : Writes} {queued : List WriteRequest} (h : Sound w queued)
    (data : List UInt8) :
    Sound { w with
      returned := w.returned ++ [{}]
      posted := w.posted ++ [⟨w.returned.length, data⟩] } (queued ++ [⟨w.returned.length, data⟩]) := by
  have hkeep : ∀ {i : Nat} {r : Returned}, w.returned[i]? = some r →
      (w.returned ++ [({} : Returned)])[i]? = some r := by
    intro i r hr
    exact (List.getElem?_append_left (List.getElem?_eq_some_iff.mp hr).1).trans hr
  refine ⟨?_, ?_, h.last, h.front, ?_, ?_, ?_⟩
  · show w.submitted ++ (queued ++ [_]) = w.posted ++ [_]
    rw [← List.append_assoc, h.sequence]
  · show (w.posted ++ [_]).map _ = List.range (w.returned ++ [_]).length
    rw [List.map_append, h.numbered, List.length_append, List.length_singleton, List.range_succ]
    rfl
  · intro q hq
    rcases List.mem_append.mp hq with hq | hq
    · exact hkeep (h.waiting q hq)
    · rw [List.mem_singleton.mp hq]
      exact List.getElem?_concat_length
  · intro q hq
    obtain ⟨fate, hr⟩ := h.pending q hq
    exact ⟨fate, hkeep hr⟩
  · intro q hq
    refine (h.set q hq).imp_right ?_
    rintro ⟨r, hr, ho⟩
    exact ⟨r, hkeep hr, ho⟩

section
variable {w : Writes} {q : WriteRequest} {queued : List WriteRequest} (h : Sound w (q :: queued))
  (refused : Bool)
include h

/-- `write` gives the call its promise. -/
theorem returned_write : (write w q.promise q.data refused).returned[q.promise]? =
    some ⟨some {}, if refused then .refused else .accepted⟩ := by
  unfold write
  rw [List.getElem?_modify_eq, h.waiting q List.mem_cons_self]
  rfl

omit h in
theorem returned_write_ne {i : Nat} (hi : q.promise ≠ i) :
    (write w q.promise q.data refused).returned[i]? = w.returned[i]? :=
  List.getElem?_modify_ne _ _ hi

theorem write_sound : Sound (write w q.promise q.data refused) queued := by
  have hmade : ∀ r ∈ w.submitted, q.promise ≠ r.promise :=
    fun r hr => (h.ne_waiting hr List.mem_cons_self).symm
  refine ⟨?_, ?_, ?_, ?_, ?_, ?_, ?_⟩
  · show w.submitted ++ [q] ++ queued = w.posted
    rw [List.append_assoc, ← h.sequence]
    rfl
  · show w.posted.map _ = List.range (w.returned.modify _ _).length
    rw [h.numbered, List.length_modify]
  · obtain ⟨old, hold⟩ := h.last
    refine ⟨old, ?_⟩
    show old ++ (w.write_queue_ ++ [q]) = w.submitted ++ [q]
    rw [← List.append_assoc, hold]
  · show (if refused then w.accepted else w.accepted ++ [q.promise]).Sublist
      ((w.write_queue_ ++ [q]).map _)
    rw [List.map_append]
    cases refused with
    | true => exact h.front.trans (List.sublist_append_left _ _)
    | false => exact h.front.append (List.Sublist.refl _)
  · intro r hr
    have hne : q.promise ≠ r.promise := by
      have hn := h.nodup
      rw [List.map_append, List.nodup_append, List.map_cons, List.nodup_cons] at hn
      intro heq
      exact hn.2.1.1 (heq ▸ List.mem_map_of_mem hr)
    rw [returned_write_ne refused hne]
    exact h.waiting r (List.mem_cons_of_mem _ hr)
  · intro r hr
    rcases List.mem_append.mp hr with hr | hr
    · rw [returned_write_ne refused (hmade r (h.queue_submitted hr))]
      exact h.pending r hr
    · rw [List.mem_singleton.mp hr]
      exact ⟨_, returned_write h refused⟩
  · intro r hr
    rcases List.mem_append.mp hr with hr | hr
    · rw [returned_write_ne refused (hmade r hr)]
      exact (h.set r hr).imp_left (List.mem_append_left _)
    · exact Or.inl (List.mem_append_right _ hr)

end

/-! ## The callbacks -/

theorem complete_pending (status : Int) :
    get (complete status {}) = (Fate.written status).outcome := by
  unfold complete Fate.outcome
  by_cases hs : status = 0
  · simp only [hs, ne_eq, not_true_eq_false, if_false, if_true]
    rfl
  · simp only [hs, ne_eq, not_false_eq_true, if_true, if_false]
    rfl

theorem outcome_written (status : Int) : (Fate.written status).outcome ≠ none := by
  show (if status = 0 then _ else _) ≠ none
  split
  · exact nofun
  · exact nofun

section
variable {w : Writes} {queued : List WriteRequest} {call : Nat} {accepted : List Nat} {status : Int}

theorem returned_taken (hc : w.returned[call]? = some ⟨some {}, .accepted⟩) :
    (w.taken call accepted status).returned[call]? = some ⟨some {}, .written status⟩ := by
  unfold Writes.taken
  rw [List.getElem?_modify_eq, hc]
  rfl

/-- The promises are the same. -/
theorem promise_taken {i : Nat} {r : Returned} (hr : w.returned[i]? = some r) :
    ∃ fate, (w.taken call accepted status).returned[i]? = some ⟨r.promise, fate⟩ := by
  unfold Writes.taken
  rw [List.getElem?_modify, hr]
  by_cases hi : call = i
  · simp only [hi, if_true]
    exact ⟨_, rfl⟩
  · simp only [hi, if_false]
    exact ⟨_, rfl⟩

theorem returned_taken_ne {i : Nat} (hi : call ≠ i) :
    (w.taken call accepted status).returned[i]? = w.returned[i]? :=
  List.getElem?_modify_ne _ _ hi

theorem taken_sound (h : Sound w queued) (ha : w.accepted = call :: accepted) :
    Sound (w.taken call accepted status) queued := by
  obtain ⟨q, hq, hcall⟩ := h.accepted_queued (ha ▸ List.mem_cons_self)
  refine ⟨h.sequence, ?_, h.last, ?_, ?_, ?_, ?_⟩
  · show w.posted.map _ = List.range (w.returned.modify _ _).length
    rw [h.numbered, List.length_modify]
  · have hfront := h.front
    rw [ha] at hfront
    exact List.sublist_of_cons_sublist hfront
  · intro r hr
    have hne := h.ne_waiting (h.queue_submitted hq) hr
    rw [hcall] at hne
    exact (returned_taken_ne hne).trans (h.waiting r hr)
  · intro r hr
    obtain ⟨fate, hr⟩ := h.pending r hr
    exact promise_taken hr
  · intro r hr
    refine (h.set r hr).imp_right ?_
    rintro ⟨x, hx, ho⟩
    obtain ⟨fate, hr⟩ : ∃ fate, (w.taken call accepted status).returned[r.promise]? =
        some ⟨x.promise, fate⟩ := promise_taken hx
    exact ⟨_, hr, ho⟩

end

section
variable {w w' : Writes} {queued : List WriteRequest} {front : WriteRequest}
  {rest : List WriteRequest} {status : Int} (h : Sound w queued)
  (hq : w.write_queue_ = front :: rest) (hw : on_write w status = some w')
include hq hw

theorem on_write_eq : w' = { w with
    write_queue_ := rest
    returned := w.returned.modify front.promise
      (fun r => { r with promise := r.promise.map (complete status) }) } := by
  unfold on_write at hw
  rw [hq] at hw
  exact (Option.some.inj hw).symm

theorem returned_on_write_ne {i : Nat} (hi : front.promise ≠ i) :
    w'.returned[i]? = w.returned[i]? := by
  rw [on_write_eq hq hw]
  exact List.getElem?_modify_ne _ _ hi

/-- The promise of the front request is set, and it was not set before. -/
theorem returned_on_write {fate : Fate} (hf : w.returned[front.promise]? = some ⟨some {}, fate⟩) :
    w'.returned[front.promise]? = some ⟨some (complete status {}), fate⟩ := by
  rw [on_write_eq hq hw]
  dsimp only
  rw [List.getElem?_modify_eq, hf]
  rfl

include h

omit hw in
theorem Sound.ne_front {q : WriteRequest} (hr : q ∈ rest) : front.promise ≠ q.promise := by
  have hn := h.queue_nodup
  rw [hq, List.map_cons, List.nodup_cons] at hn
  intro heq
  exact hn.1 (heq ▸ List.mem_map_of_mem hr)

theorem on_write_sound (ha : w.accepted.Sublist (rest.map (·.promise))) : Sound w' queued := by
  have hfront : front ∈ w.write_queue_ := by
    rw [hq]
    exact List.mem_cons_self
  have hw' := on_write_eq hq hw
  refine ⟨?_, ?_, ?_, ?_, ?_, ?_, ?_⟩
  · rw [hw']
    exact h.sequence
  · rw [hw']
    dsimp only
    rw [h.numbered, List.length_modify]
  · rw [hw']
    refine List.IsSuffix.trans ?_ h.last
    rw [hq]
    exact List.suffix_cons _ _
  · rw [hw']
    exact ha
  · intro r hr
    rw [returned_on_write_ne hq hw (h.ne_waiting (h.queue_submitted hfront) hr)]
    exact h.waiting r hr
  · intro r hr
    rw [hw'] at hr
    rw [returned_on_write_ne hq hw (h.ne_front hq hr)]
    exact h.pending r (by rw [hq]; exact List.mem_cons_of_mem _ hr)
  · intro r hr
    rw [hw'] at hr
    by_cases he : front.promise = r.promise
    · obtain ⟨fate, hf⟩ := h.pending front hfront
      refine Or.inr ⟨_, he ▸ returned_on_write hq hw hf, ?_⟩
      show get (complete status {}) ≠ none
      rw [complete_pending]
      exact outcome_written status
    · rw [returned_on_write_ne hq hw he]
      refine (h.set r hr).imp_left (fun hr => ?_)
      rw [hq] at hr
      rw [hw']
      exact (List.mem_cons.mp hr).resolve_left (fun heq => he (heq ▸ rfl))

end

/-! ## Every run -/

/-- The futures that are complete stay as they are. -/
def Keeps (w w' : Writes) : Prop :=
  ∀ (i : Nat) (r : Returned), w.returned[i]? = some r → r.outcome ≠ none →
    ∃ r', w'.returned[i]? = some r' ∧ r'.outcome = r.outcome

theorem Keeps.refl (w : Writes) : Keeps w w := fun _ r hr _ => ⟨r, hr, rfl⟩

theorem post_keeps (w : Writes) (data : List UInt8) :
    Keeps w { w with
      returned := w.returned ++ [{}]
      posted := w.posted ++ [⟨w.returned.length, data⟩] } := by
  intro i r hr _
  exact ⟨r, (List.getElem?_append_left (List.getElem?_eq_some_iff.mp hr).1).trans hr, rfl⟩

theorem write_keeps {w : Writes} {q : WriteRequest} {queued : List WriteRequest}
    (h : Sound w (q :: queued)) (refused : Bool) : Keeps w (write w q.promise q.data refused) := by
  intro i r hr ho
  have hi : q.promise ≠ i := by
    rintro rfl
    rw [h.waiting q List.mem_cons_self] at hr
    cases hr
    exact ho rfl
  exact ⟨r, (returned_write_ne refused hi).trans hr, rfl⟩

/-- A callback finds a request, and sets a promise that was not set. -/
theorem callback_sound {w : Writes} {queued : List WriteRequest} {call : Nat} {accepted : List Nat}
    (h : Sound w queued) (ha : w.accepted = call :: accepted) (status : Int) :
    ∃ w', on_write (w.taken call accepted status) status = some w' ∧ Sound w' queued ∧
      Keeps w w' := by
  have hfront := h.front
  rw [ha] at hfront
  cases hq : w.write_queue_ with
  | nil =>
    rw [hq] at hfront
    cases hfront
  | cons front rest =>
    rw [hq, List.map_cons] at hfront
    have hq' : (w.taken call accepted status).write_queue_ = front :: rest := hq
    have hs : Sound (w.taken call accepted status) queued := taken_sound h ha
    obtain ⟨w', hw⟩ : ∃ w', on_write (w.taken call accepted status) status = some w' := by
      unfold on_write
      rw [hq']
      exact ⟨_, rfl⟩
    refine ⟨w', hw, on_write_sound hs hq' hw hfront.of_cons_cons, ?_⟩
    intro i r hr ho
    obtain ⟨fate, ht⟩ : ∃ fate, (w.taken call accepted status).returned[i]? =
        some ⟨r.promise, fate⟩ := promise_taken hr
    have hi : front.promise ≠ i := by
      rintro rfl
      obtain ⟨_, hp⟩ := h.pending front (by rw [hq]; exact List.mem_cons_self)
      rw [hr] at hp
      cases hp
      exact ho rfl
    exact ⟨_, (returned_on_write_ne hq' hw hi).trans ht, rfl⟩

/-- The request that a function in the queue is to make. -/
def Task.request? : Task → Option WriteRequest
  | .write call data => some ⟨call, data⟩
  | _ => none

def requests (tasks : List Task) : List WriteRequest := tasks.filterMap Task.request?

theorem requests_append (ts us : List Task) : requests (ts ++ us) = requests ts ++ requests us :=
  List.filterMap_append

/-- The writes of the socket, in every run. -/
structure Ordered (s : System) : Prop where
  given : ∀ c ∈ s.running, c.overload.given = c.given
  sound : Sound s.writes (requests s.loop.queued)

theorem body_given {o : Overload} :
    (∀ o', o.body = .calls o' → o'.given = o.given) ∧
      ∀ data, o.body = .posts data → data = o.given := by
  cases o with
  | const_ref data =>
    refine ⟨fun o' h => ?_, nofun⟩
    cases h
    rfl
  | rvalue data =>
    refine ⟨nofun, fun d h => ?_⟩
    cases h
    rfl
  | pointer data =>
    refine ⟨fun o' h => ?_, nofun⟩
    cases h
    rfl

theorem body_ordered {s : System} (h : Ordered s) {i : Nat} {c : Call}
    (hc : s.running[i]? = some c) :
    Ordered (body s i c) ∧ Keeps s.writes (body s i c).writes := by
  have hgiven := h.given c (List.mem_of_getElem? hc)
  unfold body
  split
  · rename_i o hb
    refine ⟨⟨?_, h.sound⟩, Keeps.refl _⟩
    intro d hd
    rcases List.mem_or_eq_of_mem_set hd with hd | rfl
    · exact h.given d hd
    · exact (body_given.1 o hb).trans hgiven
  · rename_i data hb
    have hdata : data = c.given := (body_given.2 data hb).trans hgiven
    refine ⟨⟨fun d hd => h.given d (List.mem_of_mem_eraseIdx hd), ?_⟩, post_keeps _ _⟩
    rw [queued_post, requests_append, hdata]
    exact post_sound h.sound c.given

/-- A step that posts no write and calls none. -/
theorem same_ordered {s s' : System} (h : Ordered s) (hr : ∀ c ∈ s'.running, c.overload.given = c.given)
    (hw : s'.writes = s.writes) (hq : requests s'.loop.queued = requests s.loop.queued) :
    Ordered s' ∧ Keeps s.writes s'.writes := by
  refine ⟨⟨hr, ?_⟩, ?_⟩
  · rw [hw, hq]
    exact h.sound
  · rw [hw]
    exact Keeps.refl _

theorem requests_post (s : System) {task : Task} (ht : task.request? = none) :
    requests (post s task).loop.queued = requests s.loop.queued := by
  rw [queued_post, requests_append]
  show _ ++ List.filterMap _ [task] = _
  rw [List.filterMap_cons_none ht]
  exact List.append_nil _

theorem step_ordered {s s' : System} {e : Event} (h : Ordered s) (hs : step s e = some s') :
    Ordered s' ∧ Keeps s.writes s'.writes := by
  obtain ⟨-, hm⟩ := step_moves hs
  cases hm with
  | write overload ho =>
    refine same_ordered h ?_ rfl rfl
    intro c hc
    rcases List.mem_append.mp hc with hc | hc
    · exact h.given c hc
    · rw [List.mem_singleton.mp hc]
  | overload hc => exact body_ordered h hc
  | read size ho => exact same_ordered h h.given rfl (requests_post _ rfl)
  | close ho => exact same_ordered h h.given rfl (requests_post _ rfl)
  | destroy ho hr => exact same_ordered h h.given rfl (requests_post _ rfl)
  | release ho => exact same_ordered h h.given rfl rfl
  | execute => exact same_ordered h h.given rfl (requests_post _ rfl)
  | async hl => exact same_ordered h h.given rfl (congrArg requests (queued_async hl))
  | idle hl hn => exact same_ordered h h.given rfl (congrArg requests (queued_idle hl hn).symm)
  | @call loop refused task hl hn =>
    have hq := congrArg requests (queued_call hl hn)
    cases task with
    | write call data =>
      have hsound : Sound s.writes (⟨call, data⟩ :: requests loop.queued) := by
        rw [show (⟨call, data⟩ :: requests loop.queued : List WriteRequest) =
          requests (.write call data :: loop.queued) from rfl, ← hq]
        exact h.sound
      exact ⟨⟨h.given, write_sound hsound refused⟩, write_keeps hsound refused⟩
    | read size | close call | other =>
      refine same_ordered h ?_ ?_ ?_
      · rw [call_running]
        exact h.given
      · exact call_writes _ _ _ nofun
      · rw [call_loop]
        exact hq.symm
  | alloc_read hc hr => exact same_ordered h h.given rfl rfl
  | read_cb hc hr => exact same_ordered h h.given rfl rfl
  | @write_cb call accepted status ha =>
    obtain ⟨w', hw, hsound, hkeeps⟩ := callback_sound h.sound ha status
    unfold write_cb
    rw [hw]
    exact ⟨⟨h.given, hsound⟩, hkeeps⟩
  | close_cb hu hc ha => exact same_ordered h h.given rfl rfl

theorem init_ordered : Ordered {} := ⟨nofun, init_sound⟩

/-- In every run requests are made in the order of the calls, each with the bytes of its call. -/
theorem reach_ordered {ok : System → Event → Prop} {s : System} (h : Reach step ok {} s) :
    Ordered s :=
  h.invariant init_ordered (fun _ _ _ ho _ hs => (step_ordered ho hs).1)

/-- A write callback always finds its request, so no other step than these stops the program. -/
theorem Ordered.goes_on {s s' : System} {e : Event} (h : Ordered s) (hs : step s e = some s') :
    ¬ Stopped s' ↔ GoesOn s e := by
  have hf := running_of_step hs
  obtain ⟨-, hm⟩ := step_moves hs
  cases hm with
  | write _ _ | read _ _ | close _ | destroy _ _ | release _ | execute | async _
  | close_cb _ _ _ => exact ⟨fun _ => trivial, fun _ => hf⟩
  | overload _ =>
    refine ⟨fun _ => trivial, fun _ => ?_⟩
    unfold body
    split <;> exact hf
  | idle hl hn =>
    refine ⟨fun _ task ht => ?_, fun _ => hf⟩
    rw [hn] at ht
    cases ht
  | @call loop refused task hl hn =>
    refine (call_goes_on (s := { s with loop }) hf refused task).trans ?_
    constructor
    · intro ht task' hmem
      rw [hn] at hmem
      cases hmem
      exact ht
    · intro ht
      exact ht task hn
  | alloc_read hc hr | read_cb hc hr =>
    refine Iff.trans ?_ (step_goes_on hr)
    constructor
    · intro h
      exact Decidable.not_not.mp (not_or.mp h).2
    · rintro h (h' | h')
      · exact hf (Or.inl h')
      · exact h' h
  | @write_cb call accepted status ha =>
    refine ⟨fun _ => trivial, fun _ => ?_⟩
    obtain ⟨w', hw, -, -⟩ := callback_sound h.sound ha status
    unfold write_cb
    rw [hw]
    exact hf

/-! ## The mirror -/

/-- `write_queue_` is libuv's own queue, and every future has what it has to have. -/
structure Mirrored (w : Writes) : Prop where
  queue : w.accepted = w.write_queue_.map (·.promise)
  fates : ∀ q ∈ w.write_queue_, w.returned[q.promise]? = some ⟨some {}, .accepted⟩
  outcomes : ∀ r ∈ w.returned, r.outcome = r.fate.outcome

theorem init_mirrored : Mirrored {} := ⟨rfl, nofun, nofun⟩

theorem post_mirrored {w : Writes} (hm : Mirrored w) (data : List UInt8) :
    Mirrored { w with
      returned := w.returned ++ [{}]
      posted := w.posted ++ [⟨w.returned.length, data⟩] } := by
  refine ⟨hm.queue, ?_, ?_⟩
  · intro q hq
    have hr := hm.fates q hq
    exact (List.getElem?_append_left (List.getElem?_eq_some_iff.mp hr).1).trans hr
  · intro r hr
    rcases List.mem_append.mp hr with hr | hr
    · exact hm.outcomes r hr
    · rw [List.mem_singleton.mp hr]
      rfl

theorem write_mirrored {w : Writes} {q : WriteRequest} {queued : List WriteRequest}
    (h : Sound w (q :: queued)) (hm : Mirrored w) :
    Mirrored (write w q.promise q.data false) := by
  refine ⟨?_, ?_, ?_⟩
  · show w.accepted ++ [q.promise] = (w.write_queue_ ++ [q]).map _
    rw [List.map_append, hm.queue]
    rfl
  · intro r hr
    rcases List.mem_append.mp hr with hr | hr
    · rw [returned_write_ne false
        (h.ne_waiting (h.queue_submitted hr) List.mem_cons_self).symm]
      exact hm.fates r hr
    · rw [List.mem_singleton.mp hr]
      exact returned_write h false
  · intro r hr
    obtain ⟨i, hi⟩ := List.mem_iff_getElem?.mp hr
    by_cases hq : q.promise = i
    · rw [← hq, returned_write h false] at hi
      cases hi
      rfl
    · rw [returned_write_ne false hq] at hi
      exact hm.outcomes r (List.mem_of_getElem? hi)

/-- The request of a refused `uv_write` waits for a callback that does not come. -/
theorem refused_outcome {w : Writes} {q : WriteRequest} {queued : List WriteRequest}
    (h : Sound w (q :: queued)) :
    ∃ r ∈ (write w q.promise q.data true).returned, r.outcome ≠ r.fate.outcome :=
  ⟨_, List.mem_of_getElem? (returned_write h true), nofun⟩

theorem callback_mirrored {w w' : Writes} {queued : List WriteRequest} {call : Nat}
    {accepted : List Nat} {status : Int} (h : Sound w queued) (hm : Mirrored w)
    (ha : w.accepted = call :: accepted)
    (hw : on_write (w.taken call accepted status) status = some w') : Mirrored w' := by
  have hqueue := hm.queue
  rw [ha] at hqueue
  cases hq : w.write_queue_ with
  | nil =>
    rw [hq] at hqueue
    cases hqueue
  | cons front rest =>
    rw [hq, List.map_cons] at hqueue
    injection hqueue with hcall hrest
    subst hcall
    have hq' : (w.taken front.promise accepted status).write_queue_ = front :: rest := hq
    have hmem : front ∈ w.write_queue_ := by
      rw [hq]
      exact List.mem_cons_self
    have hfront := returned_on_write hq' hw (returned_taken (hm.fates front hmem))
    have hother : ∀ i, front.promise ≠ i → w'.returned[i]? = w.returned[i]? :=
      fun i hi => (returned_on_write_ne hq' hw hi).trans (returned_taken_ne hi)
    have hw' := on_write_eq hq' hw
    refine ⟨?_, ?_, ?_⟩
    · rw [hw']
      exact hrest
    · intro r hr
      rw [hw'] at hr
      rw [hother _ (h.ne_front hq hr)]
      exact hm.fates r (by rw [hq]; exact List.mem_cons_of_mem _ hr)
    · intro r hr
      obtain ⟨i, hi⟩ := List.mem_iff_getElem?.mp hr
      by_cases he : front.promise = i
      · rw [← he, hfront] at hi
        cases hi
        exact complete_pending status
      · rw [hother i he] at hi
        exact hm.outcomes r (List.mem_of_getElem? hi)

/-! ## The fate of each write -/

/-- A call that ends with a task in the queue, after as many bodies as there are steps. -/
inductive Posts : Overload → Prop where
  | posts {o : Overload} {data : List UInt8} (h : o.body = .posts data) : Posts o
  | calls {o o' : Overload} (h : o.body = .calls o') (hp : Posts o') : Posts o

/-- The `const&` overload calls itself. -/
theorem not_posts {o : Overload} (h : Posts o) : ∀ data, o ≠ .const_ref data := by
  induction h with
  | posts h =>
    rintro data rfl
    cases h
  | calls h _ ih =>
    rintro data rfl
    cases h
    exact ih data rfl

/-- What is said of the writes: each call of `write` ends, `uv_write` is called once for each of
them with the bytes given, in their order, each future has the outcome of its own request, once
that has one, and the program has not stopped with requests under way. -/
structure Faithful (s : System) : Prop where
  terminates : ∀ c ∈ s.running, Posts c.overload
  submitted : s.writes.submitted ++ requests s.loop.queued = s.writes.posted
  outcomes : ∀ r ∈ s.writes.returned, r.outcome = r.fate.outcome
  complete : requests s.loop.queued = [] → s.writes.accepted = [] →
    ∀ r ∈ s.writes.returned, r.outcome ≠ none
  runs : ¬ Stopped s

/-- The overload for a `const&` is not called, `uv_write` accepts the request of a task of `write`,
and the step does not stop the program. -/
def Accepts (s : System) : Event → Prop
  | .write (.const_ref _) => False
  | .on_async_new_task refused => ∀ task ∈ s.loop.next,
    task.GoesOn s ∧ (task.request? ≠ none → refused = false)
  | e => GoesOn s e

instance (s : System) : ∀ e, Decidable (Accepts s e)
  | .write (.const_ref _) => isFalse id
  | .write (.rvalue _) | .write (.pointer _) => isTrue trivial
  | .on_async_new_task refused => inferInstanceAs (Decidable (∀ task ∈ s.loop.next,
    Task.GoesOn s task ∧ (task.request? ≠ none → refused = false)))
  | .alloc_read n => inferInstanceAs (Decidable (GoesOn s (.alloc_read n)))
  | .read_cb nread => inferInstanceAs (Decidable (GoesOn s (.read_cb nread)))
  | .overload _ | .read _ | .close | .destroy | .release | .execute | .async_new_task_cb
  | .write_cb _ | .close_cb => isTrue trivial

theorem Accepts.goes_on {s : System} {e : Event} (h : Accepts s e) : GoesOn s e := by
  cases e with
  | write overload => trivial
  | on_async_new_task refused => exact fun task ht => (h task ht).1
  | overload _ | read _ | close | destroy | release | execute | async_new_task_cb | alloc_read _
  | read_cb _ | write_cb _ | close_cb => exact h

/-- What runs of these steps keep. -/
structure Good (s : System) : Prop where
  ordered : Ordered s
  mirrored : Mirrored s.writes
  terminates : ∀ c ∈ s.running, Posts c.overload
  runs : ¬ Stopped s

theorem Good.faithful {s : System} (h : Good s) : Faithful s := by
  refine ⟨h.terminates, h.ordered.sound.sequence, h.mirrored.outcomes, ?_, h.runs⟩
  intro hqueued haccepted r hr
  have hsound := h.ordered.sound
  obtain ⟨i, hi⟩ := List.mem_iff_getElem?.mp hr
  have hmem : i ∈ s.writes.posted.map (·.promise) := by
    rw [hsound.numbered, List.mem_range]
    exact (List.getElem?_eq_some_iff.mp hi).1
  rw [← hsound.sequence, hqueued, List.append_nil] at hmem
  obtain ⟨q, hq, rfl⟩ := List.mem_map.mp hmem
  rcases hsound.set q hq with hq | ⟨r', hr', ho⟩
  · have hempty := h.mirrored.queue
    rw [haccepted] at hempty
    rw [List.map_eq_nil_iff.mp hempty.symm] at hq
    cases hq
  · rw [hi] at hr'
    cases hr'
    exact ho

theorem init_good : Good {} :=
  ⟨init_ordered, init_mirrored, nofun, not_or.mpr ⟨fun h => h rfl, fun h => h rfl⟩⟩

/-- The calls of `write` and libuv's queue, after a body. -/
theorem body_good {s : System} (h : Good s) {i : Nat} {c : Call} (hc : s.running[i]? = some c) :
    Mirrored (body s i c).writes ∧ ∀ d ∈ (body s i c).running, Posts d.overload := by
  have hposts := h.terminates c (List.mem_of_getElem? hc)
  unfold body
  split
  · rename_i o hb
    refine ⟨h.mirrored, ?_⟩
    intro d hd
    rcases List.mem_or_eq_of_mem_set hd with hd | rfl
    · exact h.terminates d hd
    · cases hposts with
      | posts hp =>
        rw [hb] at hp
        cases hp
      | calls hp hposts =>
        rw [hb] at hp
        cases hp
        exact hposts
  · exact ⟨post_mirrored h.mirrored _, fun d hd => h.terminates d (List.mem_of_mem_eraseIdx hd)⟩

/-- A task that is not one of `write`. -/
theorem call_good {s : System} (h : Good s) {loop : Loop Task} {refused : Bool} {task : Task}
    (ht : ∀ call data, task ≠ .write call data) :
    Mirrored ({ s with loop }.call refused task).writes ∧
      ∀ c ∈ ({ s with loop }.call refused task).running, Posts c.overload := by
  rw [call_writes _ _ _ ht, call_running]
  exact ⟨h.mirrored, h.terminates⟩

theorem step_good {s s' : System} {e : Event} (h : Good s) (ha : Accepts s e)
    (hs : step s e = some s') : Good s' := by
  have ho := (step_ordered h.ordered hs).1
  have hruns := (h.ordered.goes_on hs).mpr ha.goes_on
  suffices hm : Mirrored s'.writes ∧ ∀ c ∈ s'.running, Posts c.overload from
    ⟨ho, hm.1, hm.2, hruns⟩
  obtain ⟨-, hm⟩ := step_moves hs
  cases hm with
  | write overload _ =>
    refine ⟨h.mirrored, ?_⟩
    intro c hc
    rcases List.mem_append.mp hc with hc | hc
    · exact h.terminates c hc
    · rw [List.mem_singleton.mp hc]
      cases overload with
      | const_ref data => exact ha.elim
      | rvalue data => exact .posts rfl
      | pointer data => exact .calls rfl (.posts rfl)
  | overload hc => exact body_good h hc
  | read size _ | close _ | destroy _ _ | release _ | execute | async _ | idle _ _
  | alloc_read _ _ | read_cb _ _ | close_cb _ _ _ => exact ⟨h.mirrored, h.terminates⟩
  | @call loop refused task hl hn =>
    cases task with
    | write call data =>
      obtain rfl : refused = false := (ha _ hn).2 nofun
      have hsound := h.ordered.sound
      rw [queued_call hl hn] at hsound
      exact ⟨write_mirrored (q := ⟨call, data⟩) hsound h.mirrored, h.terminates⟩
    | read size | close call | other =>
      refine call_good h ?_
      exact nofun
  | @write_cb call accepted status hacc =>
    obtain ⟨w', hw, -, -⟩ := callback_sound h.ordered.sound hacc status
    have hmirrored := callback_mirrored h.ordered.sound h.mirrored hacc hw
    unfold write_cb
    rw [hw]
    exact ⟨hmirrored, h.terminates⟩

/-- Any other step loses a write. -/
theorem step_breaks {s s' : System} {e : Event} (h : Ordered s) (ha : ¬ Accepts s e)
    (hs : step s e = some s') : ¬ Faithful s' := by
  intro hfaithful
  have hgo := (h.goes_on hs).mp hfaithful.runs
  obtain ⟨-, hm⟩ := step_moves hs
  cases hm with
  | write overload _ =>
    cases overload with
    | const_ref data =>
      have hposts := hfaithful.terminates _ (List.mem_append_right _ List.mem_cons_self)
      exact not_posts hposts data rfl
    | rvalue data => exact ha trivial
    | pointer data => exact ha trivial
  | overload _ | read size _ | close _ | destroy _ _ | release _ | execute | async _
  | alloc_read _ _ | read_cb _ _ | write_cb _ | close_cb _ _ _ => exact ha hgo
  | idle hl hn =>
    refine ha (fun task ht => ?_)
    rw [hn] at ht
    cases ht
  | @call loop refused task hl hn =>
    refine ha (fun task' ht => ⟨hgo task' ht, fun hw => ?_⟩)
    rw [hn] at ht
    cases ht
    cases task with
    | write call data =>
      cases refused with
      | false => rfl
      | true =>
        have hsound := h.sound
        rw [queued_call hl hn] at hsound
        obtain ⟨r, hr, hne⟩ := refused_outcome (q := ⟨call, data⟩) hsound
        exact absurd (hfaithful.outcomes r hr) hne
    | read size | close call | other => exact absurd rfl hw

end lio.socket.impl
