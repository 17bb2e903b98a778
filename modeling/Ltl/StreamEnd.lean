-- The end of a stream: what is left of the reads of a socket after a read
-- callback with an error, and after the close callback.
import Ltl.Socket

open runs ltl.future_state lio.task_loop

namespace lio.socket

/-! ## The order of the reads -/

/-- The reads are completed in the order in which they came, those in `read_queue_` last. -/
def Serial (c : Config) : Prop :=
  c.completed.map (·.promise) ++ c.read_queue_.map (·.promise) = List.range c.requested.length

theorem read_serial {c c' : Config} {size : Nat} (hc : Serial c) (h : read c size = some c') :
    Serial c' ∧ c'.requested = c.requested ++ [size] := by
  unfold read at h
  split at h
  · cases h
  cases h
  refine ⟨?_, rfl⟩
  show _ ++ List.map _ (c.read_queue_ ++ [_]) = List.range (c.requested ++ [size]).length
  rw [List.map_append, ← List.append_assoc, hc, List.length_append, List.length_singleton,
    List.range_succ]
  rfl

theorem alloc_read_serial {c : Config} (hc : Serial c) (s : Nat) :
    Serial (alloc_read c s) ∧ (alloc_read c s).requested = c.requested := by
  unfold Serial at *
  unfold alloc_read
  split
  · exact ⟨hc, rfl⟩
  · rename_i front rest hq
    rw [hq] at hc
    refine ⟨?_, rfl⟩
    dsimp only
    rw [List.map_cons, on_alloc_read_promise]
    exact hc

/-- `on_read` never changes whose read the front one is. -/
theorem on_read_promise {front f : Request} {buf : Buf} {nread : Nread} :
    (on_read front buf nread = .waits f → f.promise = front.promise) ∧
      ∀ result stop, on_read front buf nread = .done f result stop → f.promise = front.promise := by
  cases nread with
  | error =>
    refine ⟨nofun, fun result stop h => ?_⟩
    cases h
    rfl
  | data bytes =>
    have hreads := on_read_reads front buf bytes
    generalize on_read front buf (.data bytes) = o at hreads
    cases hreads with
    | assertion h => exact ⟨nofun, nofun⟩
    | waits h hb hp hc =>
      refine ⟨fun h => ?_, nofun⟩
      cases h
      exact hp
    | done h hb hp hv =>
      refine ⟨nofun, fun result stop h => ?_⟩
      cases h
      exact hp

theorem read_cb_serial {c : Config} (hc : Serial c) (nread : Nread) :
    Serial (read_cb c nread) ∧ (read_cb c nread).requested = c.requested := by
  unfold Serial at *
  unfold read_cb
  split
  · exact ⟨hc, rfl⟩
  rename_i front rest hq
  rw [hq, List.map_cons] at hc
  split
  · rw [hq]
    exact ⟨hc, rfl⟩
  · rename_i f ho
    refine ⟨?_, rfl⟩
    dsimp only
    rw [List.map_cons, on_read_promise.1 ho]
    exact hc
  · rename_i f result stop ho
    refine ⟨?_, rfl⟩
    dsimp only
    rw [List.map_append, List.append_assoc, List.map_singleton, List.singleton_append,
      on_read_promise.2 result stop ho]
    exact hc

/-- The callbacks of libuv keep the order, and they make no request. -/
theorem callback_serial {c c' : Config} {e : Event} (hc : Serial c)
    (h : step c e = some c') (he : ∀ size, e ≠ .read size) :
    Serial c' ∧ c'.requested = c.requested := by
  unfold step at h
  split at h
  · cases h
  split at h
  · exact absurd rfl (he _)
  · split at h
    · cases h
      exact alloc_read_serial hc _
    · cases h
  · split at h
    · cases h
      exact read_cb_serial hc _
    · cases h

theorem Serial.disjoint {c : Config} (hc : Serial c) {x : Completion} (hx : x ∈ c.completed)
    {r : Request} (hr : r ∈ c.read_queue_) : x.promise ≠ r.promise := by
  have hn : (c.completed.map (·.promise) ++ c.read_queue_.map (·.promise)).Nodup := by
    rw [hc]
    exact List.nodup_range
  exact (List.nodup_append.mp hn).2.2 _ (List.mem_map_of_mem hx) _ (List.mem_map_of_mem hr)

theorem Serial.completed_lt {c : Config} (hc : Serial c) {x : Completion} (hx : x ∈ c.completed) :
    x.promise < c.requested.length := by
  have hm : x.promise ∈ c.completed.map (·.promise) ++ c.read_queue_.map (·.promise) :=
    List.mem_append_left _ (List.mem_map_of_mem hx)
  rw [hc] at hm
  exact List.mem_range.mp hm

/-- The read of this promise is complete, with an exception. -/
def Failed (c : Config) (promise : Nat) : Prop :=
  ∃ x ∈ c.completed, x.promise = promise ∧ x.result = none

/-- The error completes the first read alone. -/
theorem error_fails {c : Config} (hc : Serial c) :
    (∀ r ∈ c.read_queue_, Failed (read_cb c .error) r.promise) ↔ c.read_queue_.length ≤ 1 := by
  unfold read_cb
  cases hq : c.read_queue_ with
  | nil => exact ⟨fun _ => Nat.zero_le 1, fun _ => nofun⟩
  | cons front rest =>
    show (∀ r ∈ front :: rest, ∃ x ∈ c.completed ++ [_], _) ↔ _
    constructor
    · intro hall
      cases hrest : rest with
      | nil => exact Nat.le_refl 1
      | cons next more =>
        have hnext : next ∈ c.read_queue_ := by
          rw [hq, hrest]
          exact List.mem_cons_of_mem _ List.mem_cons_self
        obtain ⟨x, hx, hp, -⟩ := hall next (hq ▸ hnext)
        rcases List.mem_append.mp hx with hx | hx
        · exact absurd hp (hc.disjoint hx hnext)
        · rw [List.mem_singleton.mp hx] at hp
          replace hp : front.promise = next.promise := hp
          have hn : (c.completed.map (·.promise) ++ c.read_queue_.map (·.promise)).Nodup := by
            rw [hc]
            exact List.nodup_range
          rw [List.nodup_append, hq, hrest, List.map_cons, List.nodup_cons] at hn
          exact absurd (hp ▸ List.mem_map_of_mem List.mem_cons_self) hn.2.1.1
    · intro hlen r hr
      have hnil : rest = [] := List.eq_nil_of_length_eq_zero (Nat.le_zero.mp (Nat.le_of_succ_le_succ hlen))
      rw [hnil] at hr
      rw [List.mem_singleton.mp hr]
      exact ⟨_, List.mem_append_right _ List.mem_cons_self, rfl, rfl⟩

end lio.socket

namespace lio.socket.impl

/-! ## The reads that are under way -/

def Task.size? : Task → Option Nat
  | .read size => some size
  | _ => none

/-- The sizes of the reads whose tasks are in the queue of the manager. -/
def sizes (tasks : List Task) : List Nat := tasks.filterMap Task.size?

/-- A read that was issued is in the queue of the manager, then in `read_queue_`, then complete. -/
structure Travels (s : System) : Prop where
  serial : Serial s.reads
  issued : s.fault = none → s.reads.requested ++ sizes s.loop.queued = s.issued
  handle : s.closing.tcp_ = !s.closing.called_back

theorem init_travels : Travels {} := ⟨rfl, fun _ => rfl, rfl⟩

theorem sizes_post (s : System) {task : Task} (ht : task.size? = none) :
    sizes (post s task).loop.queued = sizes s.loop.queued := by
  unfold sizes
  rw [queued_post, List.filterMap_append, List.filterMap_cons_none ht]
  exact List.append_nil _

theorem body_reads (s : System) (i : Nat) (c : Call) :
    (body s i c).reads = s.reads ∧ (body s i c).issued = s.issued ∧
      (body s i c).closing = s.closing ∧ (body s i c).fault = s.fault ∧
      sizes (body s i c).loop.queued = sizes s.loop.queued := by
  unfold body
  split
  · exact ⟨rfl, rfl, rfl, rfl, rfl⟩
  · exact ⟨rfl, rfl, rfl, rfl, sizes_post _ rfl⟩

theorem write_cb_reads (s : System) (call : Nat) (accepted : List Nat) (status : Int) :
    (write_cb s call accepted status).reads = s.reads ∧
      (write_cb s call accepted status).issued = s.issued ∧
      (write_cb s call accepted status).closing = s.closing ∧
      (write_cb s call accepted status).loop = s.loop := by
  unfold write_cb
  split <;> exact ⟨rfl, rfl, rfl, rfl⟩

/-- A task of `read` adds its read to `read_queue_`, unless the program stops there. -/
theorem call_travels {s : System} {loop : Loop Task} {refused : Bool} {task : Task}
    (h : Travels s) (hf : s.fault = none) (hl : on_async_new_task s.loop = some loop)
    (hn : s.loop.next = some task) : Travels ({ s with loop }.call refused task) := by
  have hissued := h.issued hf
  rw [queued_call hl hn] at hissued
  cases task with
  | write call data => exact ⟨h.serial, fun _ => hissued, h.handle⟩
  | read size =>
    obtain ⟨-, hc⟩ | ⟨reads, hr, ⟨-, hc⟩ | ⟨-, hc⟩⟩ := call_read { s with loop } refused size
    · rw [hc]
      exact ⟨h.serial, nofun, h.handle⟩
    · obtain ⟨hserial, hreq⟩ := read_serial h.serial hr
      rw [hc]
      refine ⟨hserial, fun _ => ?_, h.handle⟩
      show reads.requested ++ sizes loop.queued = s.issued
      rw [hreq, List.append_assoc]
      exact hissued
    · rw [hc]
      exact ⟨h.serial, nofun, h.handle⟩
  | close call =>
    obtain ⟨-, hc⟩ | ⟨-, hc⟩ := call_close { s with loop } refused call
    · rw [hc]
      exact ⟨h.serial, nofun, h.handle⟩
    · rw [hc]
      exact ⟨h.serial, fun _ => hissued, h.handle⟩
  | other => exact ⟨h.serial, fun _ => hissued, h.handle⟩

theorem step_travels {s s' : System} {e : Event} (h : Travels s) (hs : step s e = some s') :
    Travels s' := by
  obtain ⟨hf, hm⟩ := step_moves hs
  have hissued := h.issued hf
  cases hm with
  | write _ _ | release _ => exact ⟨h.serial, h.issued, h.handle⟩
  | overload _ =>
    obtain ⟨hr, hi, hc, -, hq⟩ := body_reads s _ _
    refine ⟨?_, fun _ => ?_, ?_⟩
    · rw [hr]
      exact h.serial
    · rw [hr, hi, hq]
      exact hissued
    · rw [hc]
      exact h.handle
  | read size _ =>
    refine ⟨h.serial, fun _ => ?_, h.handle⟩
    unfold sizes at hissued ⊢
    rw [queued_post, List.filterMap_append, ← List.append_assoc]
    exact congrArg (· ++ [size]) hissued
  | close _ | destroy _ _ =>
    refine ⟨h.serial, fun _ => ?_, h.handle⟩
    exact (congrArg (s.reads.requested ++ ·) (sizes_post _ rfl)).trans hissued
  | execute =>
    refine ⟨h.serial, fun _ => ?_, h.handle⟩
    rw [sizes_post s rfl]
    exact hissued
  | async hl =>
    refine ⟨h.serial, fun _ => ?_, h.handle⟩
    rw [show sizes _ = sizes s.loop.queued from congrArg sizes (queued_async hl)]
    exact hissued
  | idle hl hn =>
    refine ⟨h.serial, fun _ => ?_, h.handle⟩
    rw [queued_idle hl hn] at hissued
    exact hissued
  | call hl hn => exact call_travels h hf hl hn
  | alloc_read _ hr | read_cb _ hr =>
    obtain ⟨hserial, hreq⟩ := callback_serial h.serial hr nofun
    refine ⟨hserial, fun _ => ?_, h.handle⟩
    dsimp only
    rw [hreq]
    exact hissued
  | @write_cb call accepted status _ =>
    obtain ⟨hr, hi, hc, hq⟩ := write_cb_reads s call accepted status
    refine ⟨?_, fun _ => ?_, ?_⟩
    · rw [hr]
      exact h.serial
    · rw [hr, hi, hq]
      exact hissued
    · rw [hc]
      exact h.handle
  | close_cb _ _ _ => exact ⟨h.serial, h.issued, rfl⟩

theorem reach_travels {ok : System → Event → Prop} {s : System} (h : Reach step ok {} s) :
    Travels s :=
  h.invariant init_travels (fun _ _ _ ht _ hs => step_travels ht hs)

/-! ## The end of the stream -/

/-- What is said of the reads when this step has been taken: an error leaves none of the queued
reads, the close callback leaves none at all, and a later one completes with an exception. -/
def EndsReads (s : System) (e : Event) (s' : System) : Prop :=
  match e with
  | .read_cb .error => ∀ r ∈ s.reads.read_queue_, Failed s'.reads r.promise
  | .close_cb => s'.reads.read_queue_ = [] ∧
    ∀ i < s'.issued.length, ∃ x ∈ s'.reads.completed, x.promise = i
  | .on_async_new_task _ =>
    match s.loop.next with
    | some (.read _) => s.closing.called_back = true →
      s'.fault = none ∧ Failed s'.reads s.reads.requested.length
    | _ => True
  | _ => True

/-- The error finds one read at most, the close callback finds none, in `read_queue_` or in the
queue of the manager, and no task of `read` is called after it. -/
def NoneLeft (s : System) : Event → Prop
  | .read_cb .error => s.reads.read_queue_.length ≤ 1
  | .close_cb => s.reads.read_queue_ = [] ∧ sizes s.loop.queued = []
  | .on_async_new_task _ =>
    match s.loop.next with
    | some (.read _) => s.closing.called_back = false
    | _ => True
  | _ => True

/-- All reads are complete when none is on its way. -/
theorem all_complete {s : System} (h : Travels s) (hf : s.fault = none) :
    (s.reads.read_queue_ = [] ∧ ∀ i < s.issued.length, ∃ x ∈ s.reads.completed, x.promise = i) ↔
      s.reads.read_queue_ = [] ∧ sizes s.loop.queued = [] := by
  have hissued := h.issued hf
  refine and_congr_right (fun hq => ⟨fun hall => ?_, fun hnone i hi => ?_⟩)
  · -- the next read to be made has a promise that no completion has
    refine Decidable.byContradiction (fun hne => ?_)
    have hlt : s.reads.requested.length < s.issued.length := by
      rw [← hissued, List.length_append]
      exact Nat.lt_add_of_pos_right (List.length_pos_iff.mpr hne)
    obtain ⟨x, hx, hp⟩ := hall _ hlt
    exact Nat.ne_of_lt (h.serial.completed_lt hx) hp
  · rw [hnone, List.append_nil] at hissued
    have hserial := h.serial
    unfold Serial at hserial
    rw [hq, List.map_nil, List.append_nil, hissued] at hserial
    have hm : i ∈ s.reads.completed.map (·.promise) := by
      rw [hserial]
      exact List.mem_range.mpr hi
    exact List.mem_map.mp hm

/-- A read that comes after the close callback stops the program. -/
theorem late_read {s : System} (h : Travels s) (loop : Loop Task) (refused : Bool) (size : Nat)
    (hc : s.closing.called_back = true) : ({ s with loop }.call refused (.read size)).fault ≠ none := by
  have htcp := h.handle
  rw [hc] at htcp
  obtain ⟨-, hcall⟩ | ⟨_, -, ⟨ht, -⟩ | ⟨-, hcall⟩⟩ := call_read { s with loop } refused size
  · rw [hcall]
    exact nofun
  · exact absurd (htcp.symm.trans ht) nofun
  · rw [hcall]
    exact nofun

/-- In every run, a step at the end of the stream leaves no read pending exactly when it finds
none that it would leave. -/
theorem no_read_is_left (s : System) (h : Reach step anyEvent {} s) (e : Event) (s' : System)
    (hs : step s e = some s') : EndsReads s e s' ↔ NoneLeft s e := by
  have ht := reach_travels h
  obtain ⟨hf, hm⟩ := step_moves hs
  cases hm with
  | write _ _ | overload _ | read _ _ | close _ | destroy _ _ | release _ | execute | async _
  | alloc_read _ _ | write_cb _ => exact Iff.rfl
  | idle hl hn =>
    unfold EndsReads NoneLeft
    rw [hn]
  | @call loop refused task hl hn =>
    unfold EndsReads NoneLeft
    rw [hn]
    cases task with
    | write call data => exact Iff.rfl
    | read size =>
      show (s.closing.called_back = true → _) ↔ s.closing.called_back = false
      cases hc : s.closing.called_back with
      | false => exact ⟨fun _ => rfl, fun _ => nofun⟩
      | true => exact ⟨fun hall => absurd (hall rfl).1 (late_read ht loop refused size hc), nofun⟩
    | close call => exact Iff.rfl
    | other => exact Iff.rfl
  | @read_cb nread reads hc hr =>
    cases nread with
    | data bytes => exact Iff.rfl
    | error =>
      have hreads : reads = lio.socket.read_cb s.reads .error := by
        unfold lio.socket.step at hr
        split at hr
        · cases hr
        · dsimp only at hr
          split at hr
          · cases hr
            rfl
          · cases hr
      show (∀ r ∈ s.reads.read_queue_, Failed reads r.promise) ↔ _
      rw [hreads]
      exact error_fails ht.serial
  | close_cb _ _ _ =>
    have hall := all_complete ht hf
    exact hall

/-- A read behind one that fails stays in the queue with reading stopped, a read that is queued when
the close callback comes stays there, and one that comes later uses the null handle. -/
theorem a_read_may_be_left :
    (¬ ∀ s, Reach step anyEvent {} s → ∀ e s', step s e = some s' → EndsReads s e s') ∧
      (∃ s s', Reach step anyEvent {} s ∧ step s (.read_cb .error) = some s' ∧
        s'.reads.read_queue_.map (·.promise) = [1] ∧ s'.reads.reading = false ∧
        s'.loop.queued = []) ∧
      (∃ s s', Reach step anyEvent {} s ∧ step s .close_cb = some s' ∧
        s'.reads.read_queue_.map (·.promise) = [0] ∧ s'.reads.completed = []) ∧
      ∃ s s', Reach step anyEvent {} s ∧ s.closing.called_back = true ∧
        step s (.on_async_new_task false) = some s' ∧ s'.fault = some .read_released := by
  have herror : ∃ s s', run step {} [.read 1, .read 1, .async_new_task_cb,
      .on_async_new_task false, .on_async_new_task false, .on_async_new_task false,
      .on_async_new_task false, .on_async_new_task false, .on_async_new_task false,
      .on_async_new_task false] = some s ∧ step s (.read_cb .error) = some s' ∧
      s'.reads.read_queue_.map (·.promise) = [1] ∧ s'.reads.reading = false ∧
      s'.loop.queued = [] := ⟨_, _, rfl, rfl, rfl, rfl, rfl⟩
  have hclose : ∃ s s', run step {} [.read 1, .close, .async_new_task_cb,
      .on_async_new_task false, .on_async_new_task false, .on_async_new_task false,
      .on_async_new_task false, .on_async_new_task false, .on_async_new_task false,
      .on_async_new_task false] = some s ∧ step s .close_cb = some s' ∧
      s'.reads.read_queue_.map (·.promise) = [0] ∧ s'.reads.completed = [] :=
    ⟨_, _, rfl, rfl, rfl, rfl⟩
  have hlate : ∃ s s', run step {} [.close, .async_new_task_cb, .on_async_new_task false,
      .on_async_new_task false, .on_async_new_task false, .on_async_new_task false,
      .on_async_new_task false, .close_cb, .read 1, .async_new_task_cb,
      .on_async_new_task false] = some s ∧ s.closing.called_back = true ∧
      step s (.on_async_new_task false) = some s' ∧ s'.fault = some .read_released :=
    ⟨_, _, rfl, rfl, rfl, rfl⟩
  obtain ⟨s, s', hs, herror⟩ := herror
  obtain ⟨t, t', ht, hclose⟩ := hclose
  obtain ⟨u, u', hu, hlate⟩ := hlate
  refine ⟨?_, ⟨s, s', reach_anyEvent hs, herror⟩, ⟨t, t', reach_anyEvent ht, hclose⟩, u, u', reach_anyEvent hu, hlate⟩
  intro hall
  have hempty := (hall t (reach_anyEvent ht) .close_cb t' hclose.1).1
  rw [hempty] at hclose
  exact nomatch hclose.2.1

/-- One read, and the end of the stream. -/
theorem no_read_is_left_here : ∃ s s', Reach step anyEvent {} s ∧
    step s (.read_cb .error) = some s' ∧ s.reads.read_queue_.map (·.promise) = [0] ∧
    EndsReads s (.read_cb .error) s' := by
  have hrun : ∃ s s', run step {} [.read 1, .async_new_task_cb, .on_async_new_task false,
      .on_async_new_task false, .on_async_new_task false, .on_async_new_task false,
      .on_async_new_task false] = some s ∧ step s (.read_cb .error) = some s' ∧
      s.reads.read_queue_.map (·.promise) = [0] := ⟨_, _, rfl, rfl, rfl⟩
  obtain ⟨s, s', hrun, hs, hq⟩ := hrun
  have hr : Reach step anyEvent {} s := reach_anyEvent hrun
  have hlen : s.reads.read_queue_.length ≤ 1 := by
    rw [← List.length_map (f := (·.promise)), hq]
    exact Nat.le_refl 1
  exact ⟨s, s', hr, hs, hq, (no_read_is_left s hr _ s' hs).mpr hlen⟩

end lio.socket.impl
