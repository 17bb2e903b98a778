-- Connecting (iomanager.cpp): a task of the loop makes a request, which waits
-- for a callback of libuv, and the future of the call is unwrapped from both.
import Ltl.FutureState
import Ltl.TaskLoop

open runs ltl.future_state lio.task_loop

namespace lio.iomanager.connection_request

/-! ## The calls -/

/-- What libuv does with the request of a call: none is made, `uv_tcp_connect` has returned an
error, it is pending, or its callback has come with a status. -/
inductive Fate where
  | queued
  | refused
  | pending
  | established (status : Int)
  deriving DecidableEq, Repr

/-- What the future of a call has to have: a socket over its own handle, which is named by the call,
or an exception, of the type `Unit`. -/
def Fate.outcome (call : Nat) : Fate → Option (Except Unit Nat)
  | .queued => none
  | .refused => some (.error ())
  | .pending => none
  | .established status => if status = 0 then some (.ok call) else some (.error ())

/-- The state of a promise of a socket over a handle, or of a future of one. -/
abbrev Promise := FutureState Unit Nat Unit Unit

/-- `outer` is the promise of a future that `iomanager::connect` makes, and `prm` is that of the
request. The functions that wait for them are in `Ltl.Futures`. No step reads `fate`. -/
structure Call where
  address : String × Int
  outer : Promise := {}
  prm : Option Promise := none
  dialled : Option (String × Int) := none
  fate : Fate := .queued
  deriving DecidableEq, Repr

/-- A function in the queue of the manager. -/
inductive Task where
  | connect (call : Nat) (address : String × Int)
  | other
  deriving DecidableEq, Repr

structure System where
  loop : Loop Task := {}
  calls : List Call := []
  deriving DecidableEq, Repr

/-- `impl::connect`, and the setter in the function of `iomanager::connect`. The code does not look
at what `uv_tcp_connect` returns. -/
def Call.connect (c : Call) (call : Nat) (address : String × Int) (refused : Bool) : Call :=
  { c with
    outer := (set_value c.outer (.ok call)).2
    prm := some {}
    dialled := some address
    fate := if refused then .refused else .pending }

/-- `connection_established`. The code does not look at the status. -/
def Call.connection_established (c : Call) (call : Nat) (status : Int) : Call :=
  { c with
    prm := c.prm.map (fun prm => (set_value prm (.ok call)).2)
    fate := .established status }

/-- The future of the call, which `unwrap` makes ready once the outer future and the one that it
holds are. -/
def returned (s : System) (c : Call) : Option (Except Unit Nat) :=
  match get c.outer with
  | some (.ok call) => (s.calls[call]?).bind (fun c => c.prm.bind get)
  | _ => none

/-- The call of a task by the thread of the loop. `refused` is what `uv_tcp_connect` answers. -/
def System.call (s : System) (refused : Bool) : Task → System
  | .other => s
  | .connect call address =>
    { s with calls := s.calls.modify call (·.connect call address refused) }

inductive Event where
  | connect (address : String × Int)
  | execute
  | async_new_task_cb
  | on_async_new_task (refused : Bool)
  | connection_established (call : Nat) (status : Int)
  deriving DecidableEq, Repr

/-- libuv calls back once for each request that it has accepted, from `uv_run` and in any order. -/
def step (s : System) : Event → Option System
  | .connect address => some { s with
      loop := execute s.loop (.connect s.calls.length address)
      calls := s.calls ++ [{ address }] }
  | .execute => some { s with loop := execute s.loop .other }
  | .async_new_task_cb => (async_new_task_cb s.loop).map (fun loop => { s with loop })
  | .on_async_new_task refused =>
    (on_async_new_task s.loop).map (fun loop =>
      s.loop.next.elim { s with loop } ({ s with loop }.call refused))
  | .connection_established call status =>
    match s.loop.place, s.calls[call]? with
    | .uv_run, some c =>
      if c.fate = .pending then some { s with
        calls := s.calls.modify call (·.connection_established call status) }
      else none
    | _, _ => none

/-! ## Every run -/

/-- The promises of a call, by what libuv has done. -/
def Shaped (k : Nat) (c : Call) : Prop :=
  match c.fate with
  | .queued => c.outer = {} ∧ c.prm = none ∧ c.dialled = none
  | .refused => c.outer = { value_ := some k } ∧ c.prm = some {} ∧ c.dialled = some c.address
  | .pending => c.outer = { value_ := some k } ∧ c.prm = some {} ∧ c.dialled = some c.address
  | .established _ => c.outer = { value_ := some k } ∧ c.prm = some { value_ := some k } ∧
    c.dialled = some c.address

def Task.connects : Task → Option (Nat × (String × Int))
  | .connect call address => some (call, address)
  | .other => none

/-- The calls whose tasks are in the queue. -/
def waiting (s : System) : List (Nat × (String × Int)) := s.loop.queued.filterMap Task.connects

/-- The queue has one task for each call that was not made, in the order of the calls. -/
structure Known (s : System) : Prop where
  shaped : ∀ k c, s.calls[k]? = some c → Shaped k c
  nodup : ((waiting s).map (·.1)).Nodup
  queued : ∀ k address, (k, address) ∈ waiting s → s.calls[k]? = some { address }
  found : ∀ k c, s.calls[k]? = some c → c.fate = .queued → (k, c.address) ∈ waiting s

theorem init_known : Known {} := by
  have hnone : ∀ {k : Nat} {c : Call}, ([] : List Call)[k]? ≠ some c := by
    intro k c hk
    rw [List.getElem?_nil] at hk
    cases hk
  exact ⟨fun _ _ hk => absurd hk hnone, List.nodup_nil, fun _ _ hk => absurd hk List.not_mem_nil,
    fun _ _ hk => absurd hk hnone⟩

theorem shaped_connect {k : Nat} {address : String × Int} (refused : Bool) :
    Shaped k (Call.connect { address } k address refused) := by
  unfold Shaped Call.connect
  cases refused
  · exact ⟨rfl, rfl, rfl⟩
  · exact ⟨rfl, rfl, rfl⟩

theorem shaped_established {k : Nat} {c : Call} (h : Shaped k c) (hp : c.fate = .pending)
    (status : Int) : Shaped k (c.connection_established k status) := by
  unfold Shaped at h
  rw [hp] at h
  obtain ⟨houter, hprm, hdialled⟩ := h
  refine ⟨houter, ?_, hdialled⟩
  show c.prm.map _ = _
  rw [hprm]
  rfl

theorem connect_known {s : System} (h : Known s) (address : String × Int) :
    Known { s with
      loop := execute s.loop (.connect s.calls.length address)
      calls := s.calls ++ [{ address }] } := by
  have hwaiting : waiting { s with
      loop := execute s.loop (.connect s.calls.length address)
      calls := s.calls ++ [{ address }] } = waiting s ++ [(s.calls.length, address)] := by
    unfold waiting
    dsimp only
    rw [queued_execute, List.filterMap_append]
    rfl
  have hlast : ∀ {k c}, (s.calls ++ [({ address } : Call)])[k]? = some c →
      s.calls[k]? = some c ∨ (k = s.calls.length ∧ c = { address }) := by
    intro k c hk
    rcases Nat.lt_trichotomy k s.calls.length with hlt | rfl | hgt
    · rw [List.getElem?_append_left hlt] at hk
      exact Or.inl hk
    · rw [List.getElem?_concat_length] at hk
      exact Or.inr ⟨rfl, (Option.some.inj hk).symm⟩
    · rw [List.getElem?_eq_none (by rw [List.length_append, List.length_singleton]; omega)] at hk
      cases hk
  refine ⟨?_, ?_, ?_, ?_⟩
  · intro k c hk
    rcases hlast hk with hk | ⟨rfl, rfl⟩
    · exact h.shaped k c hk
    · exact ⟨rfl, rfl, rfl⟩
  · rw [hwaiting, List.map_append, List.nodup_append]
    refine ⟨h.nodup, List.nodup_cons.mpr ⟨nofun, List.nodup_nil⟩, ?_⟩
    intro a ha b hb
    obtain ⟨⟨k, x⟩, hmem, rfl⟩ := List.mem_map.mp ha
    rw [List.mem_singleton.mp hb]
    exact Nat.ne_of_lt (List.getElem?_eq_some_iff.mp (h.queued k x hmem)).1
  · intro k x hk
    rw [hwaiting] at hk
    rcases List.mem_append.mp hk with hk | hk
    · have hold := h.queued k x hk
      exact (List.getElem?_append_left (List.getElem?_eq_some_iff.mp hold).1).trans hold
    · cases List.mem_singleton.mp hk
      exact List.getElem?_concat_length
  · intro k c hk hf
    rw [hwaiting]
    rcases hlast hk with hk | ⟨rfl, rfl⟩
    · exact List.mem_append_left _ (h.found k c hk hf)
    · exact List.mem_append_right _ List.mem_cons_self

/-- A step that leaves the calls and their tasks as they are. -/
theorem same_known {s : System} (h : Known s) {loop : Loop Task}
    (hw : waiting { s with loop } = waiting s) : Known { s with loop } := by
  refine ⟨h.shaped, ?_, ?_, ?_⟩
  · rw [hw]
    exact h.nodup
  · rw [hw]
    exact h.queued
  · rw [hw]
    exact h.found

theorem call_known {s : System} {loop : Loop Task} {refused : Bool} {task : Task} (h : Known s)
    (hl : on_async_new_task s.loop = some loop) (hn : s.loop.next = some task) :
    Known ({ s with loop }.call refused task) := by
  have hq : s.loop.queued = task :: loop.queued := by
    rw [queued_next hl, hn]
    rfl
  cases task with
  | other =>
    refine same_known h ?_
    unfold waiting
    rw [hq]
    rfl
  | connect call address =>
    have hw : waiting s = (call, address) :: loop.queued.filterMap Task.connects := by
      unfold waiting
      rw [hq]
      rfl
    have hcall := h.queued call address (by rw [hw]; exact List.mem_cons_self)
    have hnodup := h.nodup
    rw [hw, List.map_cons, List.nodup_cons] at hnodup
    have hself : (s.calls.modify call (·.connect call address refused))[call]? =
        some (Call.connect { address } call address refused) := by
      rw [List.getElem?_modify_eq, hcall]
      rfl
    have hother : ∀ {k}, call ≠ k →
        (s.calls.modify call (·.connect call address refused))[k]? = s.calls[k]? :=
      fun hk => List.getElem?_modify_ne _ _ hk
    refine ⟨?_, hnodup.2, ?_, ?_⟩
    · intro k c hk
      by_cases he : call = k
      · subst he
        cases hself.symm.trans hk
        exact shaped_connect refused
      · exact h.shaped k c ((hother he).symm.trans hk)
    · intro k x hk
      have hne : call ≠ k := fun he => hnodup.1 (he ▸ List.mem_map_of_mem (f := (·.1)) hk)
      refine (hother hne).trans (h.queued k x ?_)
      rw [hw]
      exact List.mem_cons_of_mem _ hk
    · intro k c hk hf
      by_cases he : call = k
      · subst he
        cases hself.symm.trans hk
        cases refused <;> cases hf
      · have hold := h.found k c ((hother he).symm.trans hk) hf
        rw [hw] at hold
        refine (List.mem_cons.mp hold).resolve_left (fun heq => he ?_)
        cases heq
        rfl

theorem established_known {s : System} (h : Known s) {call : Nat} {c : Call}
    (hc : s.calls[call]? = some c) (hp : c.fate = .pending) (status : Int) :
    Known { s with calls := s.calls.modify call (·.connection_established call status) } := by
  have hself : (s.calls.modify call (·.connection_established call status))[call]? =
      some (c.connection_established call status) := by
    rw [List.getElem?_modify_eq, hc]
    rfl
  have hother : ∀ {k}, call ≠ k →
      (s.calls.modify call (·.connection_established call status))[k]? = s.calls[k]? :=
    fun hk => List.getElem?_modify_ne _ _ hk
  refine ⟨?_, h.nodup, ?_, ?_⟩
  · intro k d hk
    by_cases he : call = k
    · subst he
      cases hself.symm.trans hk
      exact shaped_established (h.shaped _ c hc) hp status
    · exact h.shaped k d ((hother he).symm.trans hk)
  · intro k x hk
    have hold := h.queued k x hk
    have hne : call ≠ k := by
      rintro rfl
      rw [hc] at hold
      cases hold
      cases hp
    exact (hother hne).trans hold
  · intro k d hk hf
    by_cases he : call = k
    · subst he
      cases hself.symm.trans hk
      cases hf
    · exact h.found k d ((hother he).symm.trans hk) hf

theorem step_known {s s' : System} {e : Event} (h : Known s) (hs : step s e = some s') :
    Known s' := by
  unfold step at hs
  split at hs
  · cases hs
    exact connect_known h _
  · cases hs
    refine same_known h ?_
    unfold waiting
    dsimp only
    rw [queued_execute, List.filterMap_append]
    exact List.append_nil _
  · obtain ⟨loop, hl, rfl⟩ := Option.map_eq_some_iff.mp hs
    refine same_known h ?_
    unfold waiting
    dsimp only
    rw [queued_async hl]
  · obtain ⟨loop, hl, rfl⟩ := Option.map_eq_some_iff.mp hs
    cases hn : s.loop.next with
    | none =>
      refine same_known h ?_
      unfold waiting
      rw [queued_next hl, hn]
      rfl
    | some task => exact call_known h hl hn
  · split at hs
    · rename_i c _ hc
      split at hs
      · rename_i hp
        cases hs
        exact established_known h hc hp _
      · cases hs
    · cases hs

/-! ## The outcome of each call -/

/-- What is said of the calls: each future has the outcome of its own request, which was made for
its own address, and when there is nothing left to do it has one. -/
structure Reports (s : System) : Prop where
  outcomes : ∀ k c, s.calls[k]? = some c → returned s c = c.fate.outcome k
  own : ∀ c ∈ s.calls, c.fate = .queued ∨ c.dialled = some c.address
  complete : waiting s = [] → (∀ c ∈ s.calls, c.fate ≠ .pending) →
    ∀ c ∈ s.calls, returned s c ≠ none

/-- `uv_tcp_connect` accepts the request, and the status of the callback is 0. -/
def Succeeds (s : System) : Event → Prop
  | .on_async_new_task refused =>
    match s.loop.next with
    | some (.connect _ _) => refused = false
    | _ => True
  | .connection_established _ status => status = 0
  | _ => True

instance (s : System) : ∀ e, Decidable (Succeeds s e)
  | .on_async_new_task refused => by
    unfold Succeeds
    dsimp only
    split <;> infer_instance
  | .connection_established _ status => inferInstanceAs (Decidable (status = 0))
  | .connect _ | .execute | .async_new_task_cb => isTrue trivial

/-- The future of a call is that of its own request. It has a socket when the callback has come,
whatever the status. -/
theorem returned_shaped {s : System} {k : Nat} {c : Call} (h : Shaped k c)
    (hk : s.calls[k]? = some c) :
    returned s c = match c.fate with
      | .established _ => some (.ok k)
      | _ => none := by
  unfold Shaped at h
  unfold returned
  cases hf : c.fate with
  | queued =>
    rw [hf] at h
    rw [h.1]
    rfl
  | refused | pending | established status =>
    rw [hf] at h
    rw [h.1]
    show (s.calls[k]?).bind _ = _
    rw [hk]
    show c.prm.bind get = _
    rw [h.2.1]
    rfl

/-- No call was refused, and no status was an error. -/
def Fine (c : Call) : Prop := c.fate ≠ .refused ∧ ∀ status, c.fate = .established status → status = 0

theorem outcome_fine {s : System} {k : Nat} {c : Call} (h : Shaped k c)
    (hk : s.calls[k]? = some c) : returned s c = c.fate.outcome k ↔ Fine c := by
  rw [returned_shaped h hk]
  unfold Fine
  cases hf : c.fate with
  | queued | pending => exact ⟨fun _ => ⟨nofun, nofun⟩, fun _ => rfl⟩
  | refused => exact ⟨nofun, fun hfine => absurd rfl hfine.1⟩
  | established status =>
    show some (Except.ok k) = (if status = 0 then some (.ok k) else some (.error ())) ↔ _
    by_cases hz : status = 0
    · rw [if_pos hz]
      refine ⟨fun _ => ⟨nofun, fun st hst => ?_⟩, fun _ => rfl⟩
      cases hst
      exact hz
    · rw [if_neg hz]
      exact ⟨nofun, fun hfine => absurd (hfine.2 status rfl) hz⟩

theorem reports_iff {s : System} (h : Known s) : Reports s ↔ ∀ c ∈ s.calls, Fine c := by
  constructor
  · intro hr c hc
    obtain ⟨k, hk⟩ := List.mem_iff_getElem?.mp hc
    exact (outcome_fine (h.shaped k c hk) hk).mp (hr.outcomes k c hk)
  · intro hfine
    refine ⟨fun k c hk => ?_, fun c hc => ?_, fun hnone hpending c hc => ?_⟩
    · exact (outcome_fine (h.shaped k c hk) hk).mpr (hfine c (List.mem_of_getElem? hk))
    · obtain ⟨k, hk⟩ := List.mem_iff_getElem?.mp hc
      have hs := h.shaped k c hk
      unfold Shaped at hs
      cases hf : c.fate with
      | queued => exact Or.inl rfl
      | refused | pending | established _ =>
        rw [hf] at hs
        exact Or.inr hs.2.2
    · obtain ⟨k, hk⟩ := List.mem_iff_getElem?.mp hc
      rw [returned_shaped (h.shaped k c hk) hk]
      cases hf : c.fate with
      | queued =>
        have hw := h.found k c hk hf
        rw [hnone] at hw
        cases hw
      | refused => exact absurd hf (hfine c hc).1
      | pending => exact absurd hf (hpending c hc)
      | established status => exact nofun

/-- A change of one call, and of nothing else that is fine or not. -/
theorem modify_fine {calls : List Call} {k : Nat} {c : Call} {f : Call → Call}
    (hk : calls[k]? = some c) (hall : ∀ c ∈ calls, Fine c) :
    (∀ c ∈ calls.modify k f, Fine c) ↔ Fine (f c) := by
  constructor
  · intro h
    refine h _ (List.mem_of_getElem? (i := k) ?_)
    rw [List.getElem?_modify_eq, hk]
    rfl
  · intro h d hd
    obtain ⟨i, hi⟩ := List.mem_iff_getElem?.mp hd
    by_cases he : k = i
    · subst he
      rw [List.getElem?_modify_eq, hk] at hi
      cases hi
      exact h
    · rw [List.getElem?_modify_ne _ _ he] at hi
      exact hall d (List.mem_of_getElem? hi)

theorem step_fine {s s' : System} {e : Event} (h : Known s) (hall : ∀ c ∈ s.calls, Fine c)
    (hs : step s e = some s') : (∀ c ∈ s'.calls, Fine c) ↔ Succeeds s e := by
  unfold step at hs
  unfold Succeeds
  split at hs
  · cases hs
    refine ⟨fun _ => trivial, fun _ c hc => ?_⟩
    rcases List.mem_append.mp hc with hc | hc
    · exact hall c hc
    · rw [List.mem_singleton.mp hc]
      exact ⟨nofun, nofun⟩
  · cases hs
    exact ⟨fun _ => trivial, fun _ => hall⟩
  · obtain ⟨loop, hl, rfl⟩ := Option.map_eq_some_iff.mp hs
    exact ⟨fun _ => trivial, fun _ => hall⟩
  · rename_i refused
    obtain ⟨loop, hl, rfl⟩ := Option.map_eq_some_iff.mp hs
    dsimp only
    cases hn : s.loop.next with
    | none => exact ⟨fun _ => trivial, fun _ => hall⟩
    | some task =>
      cases task with
      | other => exact ⟨fun _ => trivial, fun _ => hall⟩
      | connect call address =>
        have hcall : s.calls[call]? = some { address } := by
          refine h.queued call address ?_
          unfold waiting
          rw [queued_next hl, hn]
          exact List.mem_cons_self
        refine (modify_fine hcall hall).trans ?_
        unfold Fine Call.connect
        cases refused with
        | false => exact ⟨fun _ => rfl, fun _ => ⟨nofun, nofun⟩⟩
        | true => exact ⟨fun hf => absurd rfl hf.1, nofun⟩
  · split at hs
    · rename_i c _ hc
      split at hs
      · cases hs
        refine (modify_fine hc hall).trans ?_
        unfold Fine Call.connection_established
        refine ⟨fun hf => hf.2 _ rfl, fun hz => ⟨nofun, fun st hst => ?_⟩⟩
        cases hst
        exact hz
      · cases hs
    · cases hs

/-- A call whose callback has come is not changed any more. -/
theorem established_stays {s s' : System} {e : Event} (h : Known s) (hs : step s e = some s')
    {k : Nat} {c : Call} {status : Int} (hk : s.calls[k]? = some c)
    (hf : c.fate = .established status) : s'.calls[k]? = some c := by
  unfold step at hs
  split at hs
  · cases hs
    exact (List.getElem?_append_left (List.getElem?_eq_some_iff.mp hk).1).trans hk
  · cases hs
    exact hk
  · obtain ⟨loop, hl, rfl⟩ := Option.map_eq_some_iff.mp hs
    exact hk
  · obtain ⟨loop, hl, rfl⟩ := Option.map_eq_some_iff.mp hs
    cases hn : s.loop.next with
    | none => exact hk
    | some task =>
      cases task with
      | other => exact hk
      | connect call address =>
        have hcall : s.calls[call]? = some { address } := by
          refine h.queued call address ?_
          unfold waiting
          rw [queued_next hl, hn]
          exact List.mem_cons_self
        refine (List.getElem?_modify_ne _ _ ?_).trans hk
        rintro rfl
        rw [hk] at hcall
        cases hcall
        cases hf
  · split at hs
    · rename_i d _ hd
      split at hs
      · rename_i hp
        cases hs
        refine (List.getElem?_modify_ne _ _ ?_).trans hk
        rintro rfl
        rw [hk] at hd
        cases hd
        exact nomatch hf.symm.trans hp
      · cases hs
    · cases hs

/-- A future that is complete stays as it is. -/
theorem step_keeps {s s' : System} {e : Event} (h : Known s) (hs : step s e = some s') {k : Nat}
    {c : Call} (hk : s.calls[k]? = some c) (hc : returned s c ≠ none) :
    ∃ c', s'.calls[k]? = some c' ∧ returned s' c' = returned s c := by
  have hret := returned_shaped (h.shaped k c hk) hk
  cases hf : c.fate with
  | queued | refused | pending =>
    rw [hf] at hret
    exact absurd hret hc
  | established status =>
    have hk' := established_stays h hs hk hf
    exact ⟨c, hk', (returned_shaped ((step_known h hs).shaped k c hk') hk').trans hret.symm⟩

/-- In every run in which each connection succeeds each call reports its own outcome, any other
step makes a call report a wrong one or none, and no step changes a future that is complete. -/
theorem connect_reports_its_outcome (s : System) (h : Reach step Succeeds {} s) :
    Reports s ∧ ∀ e s', step s e = some s' → (Reports s' ↔ Succeeds s e) ∧
      ∀ (k : Nat) (c : Call), s.calls[k]? = some c → returned s c ≠ none →
        ∃ c', s'.calls[k]? = some c' ∧ returned s' c' = returned s c := by
  obtain ⟨hknown, hfine⟩ : Known s ∧ ∀ c ∈ s.calls, Fine c := by
    refine h.invariant (P := fun s => Known s ∧ ∀ c ∈ s.calls, Fine c)
      ⟨init_known, fun _ hc => absurd hc List.not_mem_nil⟩ ?_
    rintro t e t' ⟨hknown, hfine⟩ hok hs
    exact ⟨step_known hknown hs, (step_fine hknown hfine hs).mpr hok⟩
  refine ⟨(reports_iff hknown).mpr hfine, fun e s' hs => ⟨?_, fun k c => step_keeps hknown hs⟩⟩
  exact (reports_iff (step_known hknown hs)).trans (step_fine hknown hfine hs)

/-- A connection that fails gives a socket, and one that is refused at once gives nothing. -/
theorem connect_may_report_nothing :
    (¬ ∀ s, Reach step anyEvent {} s → Reports s) ∧
      (∃ s, Reach step anyEvent {} s ∧
        s.calls.map (fun c => (c.fate, returned s c)) = [(.established (-111), some (.ok 0))]) ∧
      ∃ s, Reach step anyEvent {} s ∧ waiting s = [] ∧
        s.calls.map (fun c => (c.fate, returned s c)) = [(.refused, none)] := by
  have hfailed : ∃ s, run step {} [.connect ("127.0.0.1", 12345), .async_new_task_cb,
      .on_async_new_task false, .on_async_new_task false, .on_async_new_task false,
      .on_async_new_task false, .on_async_new_task false, .connection_established 0 (-111)] =
      some s ∧
      s.calls.map (fun c => (c.fate, returned s c)) = [(.established (-111), some (.ok 0))] :=
    ⟨_, rfl, rfl⟩
  have hrefused : ∃ s, run step {} [.connect ("127.0.0.1", 12345), .async_new_task_cb,
      .on_async_new_task false, .on_async_new_task true] = some s ∧ waiting s = [] ∧
      s.calls.map (fun c => (c.fate, returned s c)) = [(.refused, none)] := ⟨_, rfl, rfl, rfl⟩
  obtain ⟨s, hs, hfailed⟩ := hfailed
  obtain ⟨t, ht, hw, hrefused⟩ := hrefused
  refine ⟨fun hall => ?_, ⟨s, reach_anyEvent hs, hfailed⟩, t, reach_anyEvent ht, hw, hrefused⟩
  have hone : ∃ c ∈ t.calls, c.fate = .refused := by
    have hmem : (Fate.refused, (none : Option (Except Unit Nat))) ∈
        t.calls.map (fun c => (c.fate, returned t c)) := by
      rw [hrefused]
      exact List.mem_cons_self
    obtain ⟨c, hc, heq⟩ := List.mem_map.mp hmem
    exact ⟨c, hc, congrArg Prod.fst heq⟩
  obtain ⟨c, hc, hf⟩ := hone
  have hknown : Known t :=
    (reach_anyEvent ht).invariant init_known (fun _ _ _ hk _ hs => step_known hk hs)
  exact ((reports_iff hknown).mp (hall t (reach_anyEvent ht)) c hc).1 hf

/-- Two connections, of which the second is there first. -/
theorem connect_reports_its_outcome_here : ∃ s, Reach step Succeeds {} s ∧
    s.calls.map (returned s) = [some (.ok 0), some (.ok 1)] ∧ Reports s := by
  have hrun : ∃ s, runOk step Succeeds {} [.connect ("127.0.0.1", 12345),
      .connect ("127.0.0.1", 12346), .async_new_task_cb, .on_async_new_task false,
      .on_async_new_task false, .on_async_new_task false, .on_async_new_task false,
      .on_async_new_task false, .on_async_new_task false, .on_async_new_task false,
      .connection_established 1 0, .connection_established 0 0] = some s ∧
      s.calls.map (returned s) = [some (.ok 0), some (.ok 1)] := ⟨_, rfl, rfl⟩
  obtain ⟨s, hrun, ho⟩ := hrun
  have hr := reach_of_runOk _ _ _ hrun
  exact ⟨s, hr, ho, (connect_reports_its_outcome s hr).1⟩

end lio.iomanager.connection_request
