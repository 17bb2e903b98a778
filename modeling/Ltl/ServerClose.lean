-- The close protocol of the servers: an implementation has to have an owner
-- until its close callback has run, and no future of `close` is ready before.
import Ltl.Server

open runs counts ltl.future_state lio.task_loop

namespace lio.server.impl

/-! ## The owners -/

@[simp] theorem owns_none (i : Nat) : owns i none = 0 := rfl

theorem owns_self (i : Nat) : owns i (some i) = 1 := if_pos rfl

/-- The implementation that a step gives up an owner of. -/
def gives (s : System) : Event → Option Nat
  | .assign o p =>
    if o = p then none
    else match s.objects[o]? with
      | some (.alive old) => old
      | _ => none
  | .release o =>
    match s.objects[o]? with
    | some (.destroying i) => some i
    | _ => none
  | .on_async_new_task => s.loop.popped.bind Task.impl?
  | _ => none

theorem total_toList (f : Task → Nat) (t : Option Task) : total f t.toList = t.elim 0 f := by
  cases t <;> rfl

/-- The functions that the thread destroys are those that it gives up. -/
theorem stored_given {l loop : Loop Task} (hl : on_async_new_task l = some loop) (i : Nat) :
    total (fun t => owns i t.impl?) l.stored =
      owns i (l.popped.bind Task.impl?) + total (fun t => owns i t.impl?) loop.stored := by
  rw [stored_next hl, total_append, total_toList]
  cases l.popped <;> rfl

/-- A new task is one owner more, or none. -/
theorem stored_post (l : Loop Task) (task : Task) (i : Nat) :
    total (fun t => owns i t.impl?) (execute l task).stored =
      total (fun t => owns i t.impl?) l.stored + owns i task.impl? := by
  rw [stored_execute, total_append, total_cons, total_nil, Nat.add_zero]

/-- What an object that is changed owned before, and what it owns now. -/
theorem objects_set {s : System} {o : Nat} {x : Object} (y : Object) (ho : s.objects[o]? = some x)
    (i : Nat) :
    total (fun o => owns i o.impl?) (s.objects.set o y) + owns i x.impl? =
      total (fun o => owns i o.impl?) s.objects + owns i y.impl? :=
  total_set _ _ _ _ _ ho

theorem owners_post_close (s : System) (impl_ : Option Nat) (i : Nat) :
    owners (post_close s impl_) i = owners s i + owns i impl_ := by
  cases impl_ with
  | none => rfl
  | some j =>
    unfold post_close owners
    dsimp only
    rw [stored_post, ← Nat.add_assoc]
    rfl

theorem owners_call (s : System) (task : Task) (i : Nat) : owners (s.call task) i = owners s i := by
  unfold System.call
  split
  · rfl
  · split <;> rfl

theorem owners_assign {s : System} {o p : Nat} {old impl_ : Option Nat}
    (ho : s.objects[o]? = some (.alive old)) (hp : s.objects[p]? = some (.alive impl_)) (i : Nat) :
    total (fun o => owns i o.impl?) ((s.objects.set p (.alive none)).set o (.alive impl_)) +
      owns i (gives s (.assign o p)) = total (fun o => owns i o.impl?) s.objects := by
  have hfirst := objects_set (.alive none) hp i
  have holen := (List.getElem?_eq_some_iff.mp ho).1
  unfold gives
  dsimp only
  by_cases he : o = p
  · subst he
    have hsecond := total_set (fun o => owns i (Object.impl? o)) (s.objects.set o (.alive none)) o
      (.alive none) (.alive impl_) (List.getElem?_set_self holen)
    rw [if_pos rfl, owns_none, Nat.add_zero]
    simp only [impl?_alive, owns_none] at hfirst hsecond
    omega
  · have hsecond := total_set (fun o => owns i (Object.impl? o)) (s.objects.set p (.alive none)) o
      (.alive old) (.alive impl_) ((List.getElem?_set_ne (Ne.symm he)).trans ho)
    rw [if_neg he, ho]
    simp only [impl?_alive, owns_none] at hfirst hsecond ⊢
    omega

/-- A step gives up one owner of one implementation at most, and no step does both, to give up an
owner and to make one. -/
theorem owners_step {s s' : System} {e : Event} (hs : step s e = some s') (i : Nat) :
    owners s i ≤ owners s' i + owns i (gives s e) ∧
      (gives s e = some i → owners s' i + 1 = owners s i) := by
  obtain ⟨-, hm⟩ := step_moves hs
  have hgive : ∀ {j : Option Nat} {n : Nat}, n + owns i j = owners s i →
      owners s i ≤ n + owns i j ∧ (j = some i → n + 1 = owners s i) := by
    intro j n h
    refine ⟨Nat.le_of_eq h.symm, fun hj => ?_⟩
    rw [hj, owns_self] at h
    exact h
  have hkeep : ∀ {n : Nat}, owners s i ≤ n →
      owners s i ≤ n + owns i none ∧ ((none : Option Nat) = some i → n + 1 = owners s i) :=
    fun h => ⟨h, nofun⟩
  cases hm with
  | create =>
    refine hkeep ?_
    unfold owners
    dsimp only
    rw [total_append]
    omega
  | close ho =>
    refine hkeep ?_
    rw [owners_post_close]
    exact Nat.le_add_right _ _
  | @move o impl_ ho =>
    refine hkeep ?_
    have hset := objects_set (.alive none) ho i
    unfold owners
    rw [total_append, total_cons, total_nil]
    simp only [impl?_alive, owns_none] at hset ⊢
    omega
  | assign ho hp =>
    refine hgive ?_
    have hassign := owners_assign ho hp i
    unfold owners
    dsimp only
    omega
  | @destroy o impl_ ho =>
    refine hkeep ?_
    rw [owners_post_close]
    refine Nat.le_trans (Nat.le_of_eq ?_) (Nat.le_add_right _ _)
    have hset := objects_set (impl_.elim .gone .destroying) ho i
    have hsame : (impl_.elim Object.gone Object.destroying).impl? = impl_ := by
      cases impl_ <;> rfl
    rw [hsame] at hset
    unfold owners
    simp only [impl?_alive] at hset ⊢
    omega
  | @release o j ho =>
    have hj : gives s (.release o) = some j := by
      unfold gives
      dsimp only
      rw [ho]
    rw [hj]
    refine hgive ?_
    have hset := objects_set .gone ho i
    unfold owners
    simp only [impl?_destroying, impl?_gone, owns_none] at hset ⊢
    omega
  | execute =>
    refine hkeep ?_
    unfold owners
    dsimp only
    rw [stored_post]
    omega
  | async hl =>
    refine hkeep (Nat.le_of_eq ?_)
    unfold owners
    dsimp only
    rw [stored_async hl]
  | @idle loop hl hn =>
    refine hgive ?_
    have hgiven := stored_given hl i
    unfold owners gives
    dsimp only
    omega
  | @call loop task hl hn =>
    refine hgive ?_
    have hgiven := stored_given hl i
    rw [owners_call]
    unfold owners gives
    dsimp only
    omega
  | released _ _ _ => exact hkeep (Nat.le_refl _)
  | close_cb _ _ _ _ => exact hkeep (Nat.le_refl _)

/-! ## Every run -/

/-- The parts of an implementation go together. -/
structure Consistent (m : Impl) : Prop where
  once : m.uv_closes = if m.closing_ then 1 else 0
  back : m.called_back = true → m.closing_ = true
  promise : m.closing_promise_ = if m.called_back then { value_ := some () } else {}

theorem init_consistent : Consistent {} := ⟨rfl, nofun, rfl⟩

theorem close_consistent {m : Impl} (h : Consistent m) :
    Consistent (close m).1 ∧ (close m).1.closing_ = true ∧
      (close m).1.called_back = m.called_back := by
  unfold close
  cases hc : m.closing_ with
  | true => exact ⟨h, hc, rfl⟩
  | false =>
    have honce := h.once
    rw [hc] at honce
    refine ⟨⟨?_, fun _ => rfl, h.promise⟩, rfl, rfl⟩
    show m.uv_closes + 1 = 1
    rw [honce]
    rfl

theorem closing_of_closed {m : Impl} (h : Consistent m) (hu : m.uv_closes ≠ 0) :
    m.closing_ = true := by
  cases hc : m.closing_ with
  | true => rfl
  | false =>
    have honce := h.once
    rw [hc] at honce
    exact absurd honce hu

theorem on_close_consistent {m : Impl} (h : Consistent m) (hu : m.uv_closes ≠ 0)
    (hb : m.called_back = false) : Consistent (on_close m) := by
  have hc := closing_of_closed h hu
  refine ⟨h.once, fun _ => hc, ?_⟩
  show (set_value m.closing_promise_ (.ok ())).2 = { value_ := some () }
  rw [h.promise, hb]
  rfl

/-- A call of `close` has a task in the queue, or its implementation is closing. -/
def Noted (impls : List Impl) (queued : List Task) (k : Nat) (c : Call) : Prop :=
  ∃ m, impls[c.impl_]? = some m ∧
    if c.returned = none then Task.close k c.impl_ ∈ queued else m.closing_ = true

structure Known (s : System) : Prop where
  consistent : ∀ m ∈ s.impls, Consistent m
  objects : ∀ o ∈ s.objects, ∀ i, o.impl? = some i → i < s.impls.length
  tasks : ∀ t ∈ s.loop.stored, ∀ i, t.impl? = some i → i < s.impls.length
  calls : ∀ k c, s.calls[k]? = some c → Noted s.impls s.loop.queued k c
  posted : ∀ k i, Task.close k i ∈ s.loop.queued → k < s.calls.length

theorem init_known : Known {} := ⟨nofun, nofun, nofun, nofun, nofun⟩

/-- An implementation that is closing stays so. -/
theorem noted_of_impls {impls impls' : List Impl} {queued : List Task} {k : Nat} {c : Call}
    (h : Noted impls queued k c)
    (hi : ∀ (i : Nat) (m : Impl), impls[i]? = some m → ∃ m', impls'[i]? = some m' ∧
      (m.closing_ = true → m'.closing_ = true)) : Noted impls' queued k c := by
  obtain ⟨m, hm, hr⟩ := h
  obtain ⟨m', hm', hc⟩ := hi _ m hm
  refine ⟨m', hm', ?_⟩
  split
  · rename_i hnone
    rw [if_pos hnone] at hr
    exact hr
  · rename_i hnone
    rw [if_neg hnone] at hr
    exact hc hr

theorem noted_of_queued {impls : List Impl} {queued queued' : List Task} {k : Nat} {c : Call}
    (h : Noted impls queued k c)
    (hq : c.returned = none → Task.close k c.impl_ ∈ queued → Task.close k c.impl_ ∈ queued') :
    Noted impls queued' k c := by
  obtain ⟨m, hm, hr⟩ := h
  refine ⟨m, hm, ?_⟩
  split
  · rename_i hnone
    rw [if_pos hnone] at hr
    exact hq hnone hr
  · rename_i hnone
    rw [if_neg hnone] at hr
    exact hr

/-- Objects that are changed as they may be. -/
theorem objects_known {s : System} (h : Known s) {objects : List Object}
    (ho : ∀ o ∈ objects, ∀ i, o.impl? = some i → ∃ o' ∈ s.objects, o'.impl? = some i) :
    Known { s with objects } := by
  refine ⟨h.consistent, ?_, h.tasks, h.calls, h.posted⟩
  intro o hmem i hi
  obtain ⟨o', hmem', hi'⟩ := ho o hmem i hi
  exact h.objects o' hmem' i hi'

theorem post_close_known {s : System} (h : Known s) {impl_ : Option Nat}
    (hi : ∀ i, impl_ = some i → i < s.impls.length) : Known (post_close s impl_) := by
  cases impl_ with
  | none => exact ⟨h.consistent, h.objects, h.tasks, h.calls, h.posted⟩
  | some i =>
    have hlt := hi i rfl
    have hqueued : (execute s.loop (.close s.calls.length i)).queued =
      s.loop.queued ++ [.close s.calls.length i] := queued_execute _ _
    refine ⟨h.consistent, h.objects, ?_, ?_, ?_⟩
    · intro t ht j hj
      unfold post_close at ht
      rw [stored_execute] at ht
      rcases List.mem_append.mp ht with ht | ht
      · exact h.tasks t ht j hj
      · rw [List.mem_singleton.mp ht] at hj
        cases hj
        exact hlt
    · intro k c hk
      show Noted s.impls (execute s.loop _).queued k c
      rw [hqueued]
      rcases Nat.lt_or_ge k s.calls.length with hlen | hlen
      · rw [show (post_close s (some i)).calls = s.calls ++ [{ impl_ := i }] from rfl,
          List.getElem?_append_left hlen] at hk
        exact noted_of_queued (h.calls k c hk) (fun _ hq => List.mem_append_left _ hq)
      · rw [show (post_close s (some i)).calls = s.calls ++ [{ impl_ := i }] from rfl,
          List.getElem?_append_right hlen] at hk
        have hzero : k - s.calls.length = 0 := by
          have hlt := (List.getElem?_eq_some_iff.mp hk).1
          rw [List.length_singleton] at hlt
          omega
        rw [hzero] at hk
        cases hk
        obtain rfl : k = s.calls.length := by omega
        refine ⟨s.impls[i], List.getElem?_eq_getElem hlt, ?_⟩
        rw [if_pos rfl]
        exact List.mem_append_right _ List.mem_cons_self
    · intro k j hk
      show k < (s.calls ++ [_]).length
      rw [List.length_append, List.length_singleton]
      rw [show (post_close s (some i)).loop.queued = s.loop.queued ++ [_] from hqueued] at hk
      rcases List.mem_append.mp hk with hk | hk
      · exact Nat.lt_succ_of_lt (h.posted k j hk)
      · cases List.mem_singleton.mp hk
        exact Nat.lt_succ_self _

/-- A step of the thread that takes nothing but tasks of others out of the queue. -/
theorem loop_known {s : System} (h : Known s) {loop : Loop Task}
    (hs : ∀ t ∈ loop.stored, t ∈ s.loop.stored ∨ t = .other)
    (hq : ∀ k i, Task.close k i ∈ s.loop.queued ↔ Task.close k i ∈ loop.queued) :
    Known { s with loop } := by
  refine ⟨h.consistent, h.objects, ?_, ?_, fun k i hk => h.posted k i ((hq k i).mpr hk)⟩
  · intro t ht i hi
    rcases hs t ht with ht | rfl
    · exact h.tasks t ht i hi
    · cases hi
  · intro k c hk
    exact noted_of_queued (h.calls k c hk) (fun _ hc => (hq k _).mp hc)

theorem stored_subset {l loop : Loop Task} (hl : on_async_new_task l = some loop) :
    ∀ t ∈ loop.stored, t ∈ l.stored := by
  intro t ht
  rw [stored_next hl]
  exact List.mem_append_right _ ht

/-- The task that is called next is one that is stored. -/
theorem next_stored {l : Loop Task} {task : Task} (hn : l.next = some task) : task ∈ l.stored := by
  unfold Loop.next at hn
  unfold Loop.stored Loop.queued
  split at hn
  · rename_i hp
    cases hn
    rw [hp]
    exact List.mem_append_right _ (List.mem_append_left _ List.mem_cons_self)
  · cases hn

/-- One implementation is changed, and it is closing if it was. -/
theorem impls_known {s : System} (h : Known s) {i : Nat} {m m' : Impl} (hm : s.impls[i]? = some m)
    (hcons : Consistent m') (hc : m.closing_ = true → m'.closing_ = true) :
    Known { s with impls := s.impls.set i m' } := by
  have hlt := (List.getElem?_eq_some_iff.mp hm).1
  refine ⟨?_, ?_, ?_, ?_, h.posted⟩
  · intro x hx
    rcases List.mem_or_eq_of_mem_set hx with hx | rfl
    · exact h.consistent x hx
    · exact hcons
  · intro o ho j hj
    rw [List.length_set]
    exact h.objects o ho j hj
  · intro t ht j hj
    rw [List.length_set]
    exact h.tasks t ht j hj
  · intro k c hk
    refine noted_of_impls (h.calls k c hk) (fun j x hj => ?_)
    by_cases he : i = j
    · subst he
      rw [hm] at hj
      cases hj
      exact ⟨m', List.getElem?_set_self hlt, hc⟩
    · exact ⟨x, (List.getElem?_set_ne he).trans hj, id⟩

theorem create_known {s : System} (h : Known s) : Known { s with
    impls := s.impls ++ [{}], objects := s.objects ++ [.alive (some s.impls.length)] } := by
  refine ⟨?_, ?_, ?_, ?_, h.posted⟩
  · intro m hmem
    rcases List.mem_append.mp hmem with hmem | hmem
    · exact h.consistent m hmem
    · rw [List.mem_singleton.mp hmem]
      exact init_consistent
  · intro o hmem i hi
    rw [List.length_append, List.length_singleton]
    rcases List.mem_append.mp hmem with hmem | hmem
    · exact Nat.lt_succ_of_lt (h.objects o hmem i hi)
    · rw [List.mem_singleton.mp hmem] at hi
      cases hi
      exact Nat.lt_succ_self _
  · intro t ht i hi
    rw [List.length_append]
    exact Nat.lt_add_right _ (h.tasks t ht i hi)
  · intro k c hk
    refine noted_of_impls (h.calls k c hk) (fun i m hi => ⟨m, ?_, id⟩)
    exact (List.getElem?_append_left (List.getElem?_eq_some_iff.mp hi).1).trans hi

theorem call_known {s : System} {loop : Loop Task} {task : Task} (h : Known s)
    (hl : on_async_new_task s.loop = some loop) (hn : s.loop.next = some task) :
    Known ({ s with loop }.call task) := by
  have hq : s.loop.queued = task :: loop.queued := by
    rw [queued_next hl, hn]
    rfl
  cases task with
  | other =>
    refine loop_known h (fun t ht => Or.inl (stored_subset hl t ht)) ?_
    intro k i
    rw [hq]
    exact ⟨fun hk => (List.mem_cons.mp hk).resolve_left nofun, List.mem_cons_of_mem _⟩
  | close call i =>
    have hlt := h.tasks _ (next_stored hn) i rfl
    have hm := List.getElem?_eq_getElem hlt
    have hcall : ({ s with loop }.call (.close call i)) = { s with
        loop
        impls := s.impls.set i (close s.impls[i]).1
        calls := s.calls.set call { impl_ := i, returned := some (close s.impls[i]).2 } } := by
      unfold System.call
      dsimp only
      rw [hm]
    obtain ⟨hcons, hclosing, -⟩ := close_consistent (h.consistent _ (List.mem_of_getElem? hm))
    have himpls := impls_known h hm hcons (fun _ => hclosing)
    rw [hcall]
    refine ⟨himpls.consistent, himpls.objects,
      fun t ht => himpls.tasks t (stored_subset hl t ht), ?_, ?_⟩
    · intro k c hk
      dsimp only at hk
      rw [List.getElem?_set] at hk
      split at hk
      · split at hk
        · cases hk
          refine ⟨_, List.getElem?_set_self hlt, ?_⟩
          rw [if_neg nofun]
          exact hclosing
        · cases hk
      · rename_i hne
        refine noted_of_queued (himpls.calls k c hk) (fun _ hmem => ?_)
        dsimp only at hmem
        rw [hq] at hmem
        refine (List.mem_cons.mp hmem).resolve_left (fun he => hne ?_)
        cases he
        rfl
    · intro k j hk
      rw [List.length_set]
      refine h.posted k j ?_
      rw [hq]
      exact List.mem_cons_of_mem _ hk

theorem step_known {s s' : System} {e : Event} (h : Known s) (hs : step s e = some s') :
    Known s' := by
  obtain ⟨-, hm⟩ := step_moves hs
  cases hm with
  | create => exact create_known h
  | close ho => exact post_close_known h (fun i hi => h.objects _ (List.mem_of_getElem? ho) i hi)
  | move ho =>
    refine objects_known h (fun x hx i hi => ?_)
    rcases List.mem_append.mp hx with hx | hx
    · rcases List.mem_or_eq_of_mem_set hx with hx | rfl
      · exact ⟨x, hx, hi⟩
      · cases hi
    · rw [List.mem_singleton.mp hx] at hi
      exact ⟨_, List.mem_of_getElem? ho, hi⟩
  | assign ho hp =>
    refine objects_known h (fun x hx i hi => ?_)
    rcases List.mem_or_eq_of_mem_set hx with hx | rfl
    · rcases List.mem_or_eq_of_mem_set hx with hx | rfl
      · exact ⟨x, hx, hi⟩
      · cases hi
    · exact ⟨_, List.mem_of_getElem? hp, hi⟩
  | @destroy o impl_ ho =>
    have hsame : (impl_.elim Object.gone Object.destroying).impl? = impl_ := by
      cases impl_ <;> rfl
    refine post_close_known (objects_known h (fun x hx i hi => ?_))
      (fun i hi => h.objects _ (List.mem_of_getElem? ho) i hi)
    rcases List.mem_or_eq_of_mem_set hx with hx | rfl
    · exact ⟨x, hx, hi⟩
    · rw [hsame] at hi
      exact ⟨_, List.mem_of_getElem? ho, hi⟩
  | release ho =>
    refine objects_known h (fun x hx i hi => ?_)
    rcases List.mem_or_eq_of_mem_set hx with hx | rfl
    · exact ⟨x, hx, hi⟩
    · cases hi
  | execute =>
    refine loop_known h (fun t ht => ?_) (fun k i => ?_)
    · rw [stored_execute] at ht
      exact (List.mem_append.mp ht).imp_right List.mem_singleton.mp
    · rw [queued_execute]
      refine ⟨List.mem_append_left _, fun hk => (List.mem_append.mp hk).resolve_right ?_⟩
      rw [List.mem_singleton]
      exact nofun
  | async hl =>
    refine loop_known h (fun t ht => ?_) (fun k i => ?_)
    · rw [stored_async hl] at ht
      exact Or.inl ht
    · rw [queued_async hl]
  | idle hl hn =>
    refine loop_known h (fun t ht => Or.inl (stored_subset hl t ht)) (fun k i => ?_)
    rw [queued_next hl, hn]
    exact Iff.rfl
  | call hl hn => exact call_known h hl hn
  | released _ _ _ => exact ⟨h.consistent, h.objects, h.tasks, h.calls, h.posted⟩
  | @close_cb i m hm hu hb _ =>
    exact impls_known h hm (on_close_consistent (h.consistent m (List.mem_of_getElem? hm)) hu hb) id

/-! ## The protocol -/

/-- The future that a call of `close` has returned. -/
def outcome (s : System) (c : Call) : Option (Except Unit Unit) :=
  match c.returned with
  | none => none
  | some .ready => some (.ok ())
  | some .promise => (s.impls[c.impl_]?).bind (fun m => get m.closing_promise_)

def closing (s : System) (i : Nat) : Bool := (s.impls[i]?).any (·.closing_)

def calledBack (s : System) (i : Nat) : Bool := (s.impls[i]?).any (·.called_back)

theorem calledBack_eq {s : System} {i : Nat} {m : Impl} (hm : s.impls[i]? = some m) :
    calledBack s i = m.called_back := by
  unfold calledBack
  rw [hm]
  rfl

theorem closing_eq {s : System} {i : Nat} {m : Impl} (hm : s.impls[i]? = some m) :
    closing s i = m.closing_ := by
  unfold closing
  rw [hm]
  rfl

/-- The loop has nothing left to do, and libuv has called back for every `uv_close`. -/
def Quiet (s : System) : Prop :=
  s.loop.stored = [] ∧ ∀ m ∈ s.impls, m.uv_closes ≠ 0 → m.called_back = true

/-- What is said of the servers. An implementation has an owner until its callback has run: before
`uv_close` only an owner can close its handle, and after it libuv uses the handle. -/
structure Closes (s : System) : Prop where
  once : ∀ m ∈ s.impls, m.uv_closes ≤ 1
  after : ∀ c ∈ s.calls, outcome s c ≠ none → calledBack s c.impl_ = true
  owned : ∀ i < s.impls.length, calledBack s i = false → owners s i ≠ 0
  fault : s.fault = none
  futures : Quiet s → ∀ c ∈ s.calls, outcome s c ≠ none
  closed : Quiet s → (∀ o ∈ s.objects, o.impl? = none) → ∀ m ∈ s.impls, m.uv_closes = 1

/-- The step gives up no last owner before the callback, it neither closes nor destroys an object
that was moved from, and the task that it calls finds its implementation open or called back. -/
def Allowed (s : System) (e : Event) : Prop :=
  (match gives s e with
    | some i => owners s i = 1 → calledBack s i = true
    | none => True) ∧
  match e with
  | .close o => s.objects[o]? ≠ some (.alive none)
  | .destroy o => s.objects[o]? ≠ some (.alive none)
  | .on_async_new_task =>
    match s.loop.next with
    | some (.close _ i) => closing s i = true → calledBack s i = true
    | _ => True
  | _ => True

instance (s : System) (e : Event) : Decidable (Allowed s e) := by
  unfold Allowed
  refine @instDecidableAnd _ _ ?_ ?_
  · split <;> infer_instance
  · split
    · infer_instance
    · infer_instance
    · split <;> infer_instance
    · infer_instance

/-- What runs of these steps keep. -/
structure Good (s : System) : Prop where
  known : Known s
  owned : ∀ i < s.impls.length, calledBack s i = false → owners s i ≠ 0
  ready : ∀ c ∈ s.calls, c.returned = some .ready → calledBack s c.impl_ = true
  fault : s.fault = none

theorem init_good : Good {} := ⟨init_known, nofun, nofun, rfl⟩

/-- The promise of an implementation is ready when its callback has run. -/
theorem get_promise {m : Impl} (h : Consistent m) :
    get m.closing_promise_ ≠ none ↔ m.called_back = true := by
  rw [h.promise]
  cases m.called_back with
  | true => exact iff_of_true nofun rfl
  | false => exact iff_of_false (fun hne => hne rfl) nofun

theorem Good.after {s : System} (h : Good s) {c : Call} (hc : c ∈ s.calls)
    (ho : outcome s c ≠ none) : calledBack s c.impl_ = true := by
  unfold outcome at ho
  split at ho
  · exact absurd rfl ho
  · rename_i hr
    exact h.ready c hc hr
  · cases hm : s.impls[c.impl_]? with
    | none =>
      rw [hm] at ho
      exact absurd rfl ho
    | some m =>
      rw [hm] at ho
      rw [calledBack_eq hm]
      exact (get_promise (h.known.consistent m (List.mem_of_getElem? hm))).mp ho

/-- Each call has returned, and libuv has called back. -/
theorem Good.futures {s : System} (h : Good s) (hquiet : Quiet s) {c : Call} (hc : c ∈ s.calls) :
    outcome s c ≠ none := by
  obtain ⟨k, hk⟩ := List.mem_iff_getElem?.mp hc
  obtain ⟨m, hm, hnoted⟩ := h.known.calls k c hk
  have hmem := List.mem_of_getElem? hm
  have hcons := h.known.consistent m hmem
  unfold outcome
  cases hr : c.returned with
  | none =>
    rw [if_pos hr] at hnoted
    have hin : Task.close k c.impl_ ∈ s.loop.stored := List.mem_append_right _ hnoted
    rw [hquiet.1] at hin
    cases hin
  | some r =>
    rw [hr, if_neg nofun] at hnoted
    cases r with
    | ready => exact nofun
    | promise =>
      have honce := hcons.once
      rw [hnoted] at honce
      have hb := hquiet.2 m hmem (by rw [honce]; exact Nat.one_ne_zero)
      rw [hm]
      exact (get_promise hcons).mpr hb

/-- Nothing owns an implementation, so its callback has run. -/
theorem Good.closed {s : System} (h : Good s) (hquiet : Quiet s)
    (hgone : ∀ o ∈ s.objects, o.impl? = none) {m : Impl} (hmem : m ∈ s.impls) :
    m.uv_closes = 1 := by
  obtain ⟨i, hi⟩ := List.mem_iff_getElem?.mp hmem
  have hcons := h.known.consistent m hmem
  have hnone : owners s i = 0 := by
    unfold owners
    rw [hquiet.1, total_nil, Nat.add_zero, total_eq_zero_iff]
    intro o ho
    rw [hgone o ho]
    rfl
  have hb : m.called_back = true := by
    cases hb : m.called_back with
    | true => rfl
    | false =>
      have hlt := (List.getElem?_eq_some_iff.mp hi).1
      exact absurd hnone (h.owned i hlt ((calledBack_eq hi).trans hb))
  rw [hcons.once, hcons.back hb]
  rfl

theorem Good.closes {s : System} (h : Good s) : Closes s := by
  refine ⟨?_, fun c => h.after, h.owned, h.fault, fun hquiet c => h.futures hquiet,
    fun hquiet hgone m => h.closed hquiet hgone⟩
  intro m hm
  rw [(h.known.consistent m hm).once]
  split
  · exact Nat.le_refl 1
  · exact Nat.zero_le 1

/-- The implementations stay, and a callback that has run has run. -/
theorem impls_step {s s' : System} {e : Event} (hs : step s e = some s') {i : Nat} {m : Impl}
    (hi : s.impls[i]? = some m) :
    ∃ m', s'.impls[i]? = some m' ∧ (m.called_back = true → m'.called_back = true) := by
  have hset : ∀ (j : Nat) (x y : Impl), s.impls[j]? = some x →
      (x.called_back = true → y.called_back = true) →
      ∃ m', (s.impls.set j y)[i]? = some m' ∧ (m.called_back = true → m'.called_back = true) := by
    intro j x y hj hb
    by_cases he : j = i
    · subst he
      rw [hi] at hj
      cases hj
      exact ⟨y, List.getElem?_set_self (List.getElem?_eq_some_iff.mp hi).1, hb⟩
    · exact ⟨m, (List.getElem?_set_ne he).trans hi, id⟩
  obtain ⟨-, hm⟩ := step_moves hs
  cases hm with
  | create =>
    exact ⟨m, (List.getElem?_append_left (List.getElem?_eq_some_iff.mp hi).1).trans hi, id⟩
  | @close o impl_ ho | @destroy o impl_ ho => cases impl_ <;> exact ⟨m, hi, id⟩
  | move _ | assign _ _ | release _ | execute | async _ | idle _ _ | released _ _ _ =>
    exact ⟨m, hi, id⟩
  | @call loop task hl hn =>
    unfold System.call
    split
    · exact ⟨m, hi, id⟩
    · split
      · exact ⟨m, hi, id⟩
      · rename_i hx
        refine hset _ _ _ hx ?_
        unfold close
        split <;> exact id
  | close_cb hx _ _ _ => exact hset _ _ _ hx (fun _ => rfl)

/-- Only `create` makes an implementation. -/
theorem length_step {s s' : System} {e : Event} (hs : step s e = some s') (he : e ≠ .create) :
    s'.impls.length = s.impls.length := by
  obtain ⟨-, hm⟩ := step_moves hs
  cases hm with
  | create => exact absurd rfl he
  | @close o impl_ ho | @destroy o impl_ ho => cases impl_ <;> rfl
  | move _ | assign _ _ | release _ | execute | async _ | idle _ _ | released _ _ _ => rfl
  | @call loop task hl hn =>
    unfold System.call
    split
    · rfl
    · split
      · rfl
      · exact List.length_set
  | close_cb _ _ _ _ => exact List.length_set

theorem calledBack_step {s s' : System} {e : Event} (hs : step s e = some s') {i : Nat}
    (hb : calledBack s i = true) : calledBack s' i = true := by
  cases hm : s.impls[i]? with
  | none =>
    unfold calledBack at hb
    rw [hm] at hb
    cases hb
  | some m =>
    obtain ⟨m', hm', hback⟩ := impls_step hs hm
    rw [calledBack_eq hm']
    exact hback ((calledBack_eq hm).symm.trans hb)

/-- A step that gives up no last owner before the callback keeps the implementations owned. -/
theorem step_owned {s s' : System} {e : Event} (h : Good s) (hs : step s e = some s')
    (ha : ∀ i, gives s e = some i → owners s i = 1 → calledBack s i = true) :
    ∀ i < s'.impls.length, calledBack s' i = false → owners s' i ≠ 0 := by
  intro i hlt hb
  by_cases hi : i < s.impls.length
  · have hold : calledBack s i = false := by
      cases hc : calledBack s i with
      | false => rfl
      | true => exact absurd (hb.symm.trans (calledBack_step hs hc)) nofun
    have howned := h.owned i hi hold
    obtain ⟨hle, hgiven⟩ := owners_step hs i
    by_cases hg : gives s e = some i
    · have hgiven := hgiven hg
      intro hzero
      rw [hzero] at hgiven
      exact absurd (hold.symm.trans (ha i hg hgiven.symm)) nofun
    · have hzero : owns i (gives s e) = 0 := if_neg hg
      omega
  · have hcreate : e = .create := by
      by_cases he : e = .create
      · exact he
      · rw [length_step hs he] at hlt
        exact absurd hlt hi
    subst hcreate
    obtain ⟨-, hm⟩ := step_moves hs
    cases hm
    rw [List.length_append, List.length_singleton] at hlt
    obtain rfl : i = s.impls.length := by omega
    unfold owners
    dsimp only
    rw [total_append, total_cons, impl?_alive, owns_self]
    omega

/-- A call of `close` is told that the server is closed when it was already closing. -/
theorem close_ready {m : Impl} (h : (close m).2 = .ready) : m.closing_ = true := by
  unfold close at h
  split at h
  · rename_i hc
    exact hc
  · cases h

theorem step_good {s s' : System} {e : Event} (h : Good s) (ha : Allowed s e)
    (hs : step s e = some s') : Good s' := by
  have hgive : ∀ i, gives s e = some i → owners s i = 1 → calledBack s i = true := by
    intro i hi
    have hfirst := ha.1
    rw [hi] at hfirst
    exact hfirst
  have hknown := step_known h.known hs
  have howned := step_owned h hs hgive
  have hsame : ∀ c ∈ s.calls, c.returned = some .ready → calledBack s' c.impl_ = true :=
    fun c hc hr => calledBack_step hs (h.ready c hc hr)
  obtain ⟨hf, hm⟩ := step_moves hs
  cases hm with
  | @close o impl_ ho | @destroy o impl_ ho =>
    cases impl_ with
    | none => exact absurd ho ha.2
    | some i =>
      refine ⟨hknown, howned, ?_, hf⟩
      intro c hc hr
      rcases List.mem_append.mp hc with hc | hc
      · exact hsame c hc hr
      · rw [List.mem_singleton.mp hc] at hr
        cases hr
  | create | move _ | assign _ _ | release _ | execute | async _ | idle _ _ | close_cb _ _ _ _ =>
    exact ⟨hknown, howned, hsame, hf⟩
  | @call loop task hl hn =>
    cases task with
    | other => exact ⟨hknown, howned, hsame, hf⟩
    | close call i =>
      have hlt := h.known.tasks _ (next_stored hn) i rfl
      have hm := List.getElem?_eq_getElem hlt
      unfold System.call at hknown howned hsame hs ⊢
      dsimp only at hknown howned hsame hs ⊢
      rw [hm] at hknown howned hsame hs ⊢
      refine ⟨hknown, howned, ?_, hf⟩
      intro c hc hr
      rcases List.mem_or_eq_of_mem_set hc with hc | rfl
      · exact hsame c hc hr
      · have hclosing : closing s i = true :=
          (closing_eq hm).trans (close_ready (Option.some.inj hr))
        have hsecond := ha.2
        dsimp only at hsecond
        rw [hn] at hsecond
        exact calledBack_step hs (hsecond hclosing)
  | @released i m hm hb ho =>
    have hlt := (List.getElem?_eq_some_iff.mp hm).1
    exact absurd ho (h.owned i hlt ((calledBack_eq hm).trans hb))

theorem gives_lt {s : System} {e : Event} (h : Known s) {i : Nat} (hg : gives s e = some i) :
    i < s.impls.length := by
  unfold gives at hg
  split at hg
  · split at hg
    · cases hg
    · split at hg
      · rename_i ho
        exact h.objects _ (List.mem_of_getElem? ho) i hg
      · cases hg
  · split at hg
    · rename_i ho
      cases hg
      exact h.objects _ (List.mem_of_getElem? ho) i rfl
    · cases hg
  · obtain ⟨task, hp, ht⟩ := Option.bind_eq_some_iff.mp hg
    refine h.tasks task ?_ i ht
    unfold Loop.stored
    rw [hp]
    exact List.mem_cons_self
  · cases hg

/-- A step that gives up an owner changes no implementation. -/
theorem gives_impls {s s' : System} {e : Event} {i : Nat} (hs : step s e = some s')
    (hg : gives s e = some i) : s'.impls = s.impls := by
  obtain ⟨-, hm⟩ := step_moves hs
  cases hm with
  | create | close _ | move _ | destroy _ | execute | async _ | released _ _ _
  | close_cb _ _ _ _ => cases hg
  | assign _ _ | release _ | idle _ _ => rfl
  | call hl hn =>
    -- the thread destroys a function or calls one
    unfold gives Loop.popped at hg
    unfold Loop.next at hn
    dsimp only at hg
    split at hn
    · rename_i hp
      rw [hp] at hg
      cases hg
    · cases hn

/-- Any other step breaks the protocol. -/
theorem step_breaks {s s' : System} {e : Event} (h : Good s) (hs : step s e = some s')
    (hc : Closes s') : Allowed s e := by
  refine ⟨?_, ?_⟩
  · cases hg : gives s e with
    | none => trivial
    | some i =>
      have himpls := gives_impls hs hg
      have hlt := gives_lt h.known hg
      intro hone
      cases hb : calledBack s i with
      | true => rfl
      | false =>
        have hzero := (owners_step hs i).2 hg
        have hb' : calledBack s' i = false := by
          unfold calledBack at hb ⊢
          rw [himpls]
          exact hb
        exact absurd (by omega) (hc.owned i (by rw [himpls]; exact hlt) hb')
  · obtain ⟨-, hm⟩ := step_moves hs
    cases hm with
    | create | move _ | assign _ _ | release _ | execute | async _ | released _ _ _
    | close_cb _ _ _ _ => trivial
    | @close o impl_ ho | @destroy o impl_ ho =>
      dsimp only
      rw [ho]
      cases impl_ with
      | none => exact nomatch hc.fault
      | some i => exact nofun
    | idle hl hn =>
      dsimp only
      rw [hn]
      trivial
    | @call loop task hl hn =>
      dsimp only
      rw [hn]
      cases task with
      | other => trivial
      | close call i =>
        have hlt := h.known.tasks _ (next_stored hn) i rfl
        have hm := List.getElem?_eq_getElem hlt
        have hposted : call < s.calls.length := by
          refine h.known.posted call i ?_
          rw [queued_next hl, hn]
          exact List.mem_cons_self
        intro hclosing
        rw [closing_eq hm] at hclosing
        unfold System.call at hc
        dsimp only at hc
        rw [hm] at hc
        -- the call of the closing implementation has returned a future that is ready
        have hready : (close s.impls[i]).2 = .ready := by
          unfold close
          rw [if_pos hclosing]
        have hback := hc.after { impl_ := i, returned := some (close s.impls[i]).2 }
          (List.mem_of_getElem? (List.getElem?_set_self hposted)) (by rw [hready]; exact nofun)
        rw [calledBack_eq (List.getElem?_set_self hlt)] at hback
        have hkeep : (close s.impls[i]).1.called_back = s.impls[i].called_back :=
          (close_consistent (h.known.consistent _ (List.mem_of_getElem? hm))).2.2
        rw [calledBack_eq hm, ← hkeep]
        exact hback

/-- In every run of allowed steps the servers keep the protocol, and any other step breaks it. -/
theorem a_server_closes_with_an_owner (s : System) (h : Reach step Allowed {} s) :
    Closes s ∧ ∀ e s', step s e = some s' → (Closes s' ↔ Allowed s e) := by
  have hg : Good s := h.invariant init_good (fun _ _ _ hg ha hs => step_good hg ha hs)
  exact ⟨hg.closes, fun e s' hs =>
    ⟨fun hc => step_breaks hg hs hc, fun ha => (step_good hg ha hs).closes⟩⟩

/-- The second call of `close` is told too early, the destructor alone leaves the implementation to
libuv without an owner, a move assignment drops one that is open, and the destructor of a server
that was moved from uses the null pointer. -/
theorem a_server_may_lose_its_owner :
    (¬ ∀ s, Reach step anyEvent {} s → Closes s) ∧
      (∃ s, Reach step anyEvent {} s ∧ s.calls.map (outcome s) = [none, some (.ok ())] ∧
        calledBack s 0 = false) ∧
      (∃ s, Reach step anyEvent {} s ∧ closing s 0 = true ∧ calledBack s 0 = false ∧
        owners s 0 = 0) ∧
      (∃ s, Reach step anyEvent {} s ∧ s.fault = some .released) ∧
      (∃ s, Reach step anyEvent {} s ∧ closing s 0 = false ∧ owners s 0 = 0) ∧
      ∃ s, Reach step anyEvent {} s ∧ s.fault = some .null := by
  have hearly : ∃ s, run step {} [.create, .close 0, .close 0, .async_new_task_cb,
      .on_async_new_task, .on_async_new_task, .on_async_new_task, .on_async_new_task] = some s ∧
      s.calls.map (outcome s) = [none, some (.ok ())] ∧ calledBack s 0 = false :=
    ⟨_, rfl, rfl, rfl⟩
  have howner : ∃ s, run step {} [.create, .destroy 0, .release 0, .async_new_task_cb,
      .on_async_new_task, .on_async_new_task, .on_async_new_task] = some s ∧
      closing s 0 = true ∧ calledBack s 0 = false ∧ owners s 0 = 0 := ⟨_, rfl, rfl, rfl, rfl⟩
  have hreleased : ∃ s, run step {} [.create, .destroy 0, .release 0, .async_new_task_cb,
      .on_async_new_task, .on_async_new_task, .on_async_new_task, .on_async_new_task,
      .on_async_new_task, .close_cb 0] = some s ∧ s.fault = some .released := ⟨_, rfl, rfl⟩
  have hdropped : ∃ s, run step {} [.create, .create, .assign 0 1] = some s ∧
      closing s 0 = false ∧ owners s 0 = 0 := ⟨_, rfl, rfl, rfl⟩
  have hnull : ∃ s, run step {} [.create, .move 0, .destroy 0] = some s ∧
      s.fault = some .null := ⟨_, rfl, rfl⟩
  obtain ⟨s, hs, hearly⟩ := hearly
  obtain ⟨t, ht, howner⟩ := howner
  obtain ⟨u, hu, hf⟩ := hreleased
  obtain ⟨v, hv, hdropped⟩ := hdropped
  obtain ⟨w, hw, hnull⟩ := hnull
  refine ⟨?_, ⟨s, reach_anyEvent hs, hearly⟩, ⟨t, reach_anyEvent ht, howner⟩, ⟨u, reach_anyEvent hu, hf⟩,
    ⟨v, reach_anyEvent hv, hdropped⟩, w, reach_anyEvent hw, hnull⟩
  intro hall
  have hfault := (hall u (reach_anyEvent hu)).fault
  rw [hf] at hfault
  cases hfault

/-- The object is kept until the callback has run, and then destroyed. -/
theorem a_server_closes_with_an_owner_here : ∃ s, Reach step Allowed {} s ∧
    s.calls.map (outcome s) = [some (.ok ()), some (.ok ())] ∧ s.objects = [.gone] ∧ Closes s := by
  have hrun : ∃ s, runOk step Allowed {} [.create, .close 0, .async_new_task_cb,
      .on_async_new_task, .on_async_new_task, .on_async_new_task, .on_async_new_task,
      .on_async_new_task, .close_cb 0, .destroy 0, .release 0, .async_new_task_cb,
      .on_async_new_task, .on_async_new_task, .on_async_new_task] = some s ∧
      s.calls.map (outcome s) = [some (.ok ()), some (.ok ())] ∧ s.objects = [.gone] :=
    ⟨_, rfl, rfl, rfl⟩
  obtain ⟨s, hrun, ho, hgone⟩ := hrun
  have hr := reach_of_runOk _ _ _ hrun
  exact ⟨s, hr, ho, hgone, (a_server_closes_with_an_owner s hr).1⟩

end lio.server.impl
