-- Promises as objects (promise.hpp): the state of a promise belongs to one
-- object, which moves and swaps pass on. When the last object of a state is
-- gone, nothing sets the state any more, and no exception says so.
import Ltl.WhenAllReady

open ltl.future_state runs

namespace ltl.promise_objects

open ltl.futures (StateId Value Exception Action Owned Good Ready Stored FreshCounters
  CountersKept)

variable {α ε : Type}

/-! ## One object -/

/-- `promise<T>`. -/
structure Promise where
  state_ : Option StateId
  retrieved_ : Bool
  deriving DecidableEq, Repr

/-- What a promise throws by itself. -/
inductive Errc where
  | no_state
  | future_already_retrieved
  deriving DecidableEq, Repr

/-- `promise(promise&& other)`: the new object, and what is left of `other`. -/
def Promise.move (other : Promise) : Promise × Promise := (other, { other with state_ := none })

/-- `swap`: the two objects after it. -/
def Promise.swap (p other : Promise) : Promise × Promise :=
  (⟨other.state_, other.retrieved_⟩, ⟨p.state_, p.retrieved_⟩)

def Promise.get_future (p : Promise) : Except Errc StateId × Promise :=
  match p.state_ with
  | none => (.error .no_state, p)
  | some st =>
    if p.retrieved_ then (.error .future_already_retrieved, p)
    else (.ok st, { p with retrieved_ := true })

/-! ## The objects of a program -/

/-- What client code has been told. -/
inductive Entry where
  | retrieved (st : StateId)
  | threw (p : Nat) (x : Errc)
  deriving DecidableEq, Repr

/-- The threads of `Ltl.Futures`, with the promises that the client has made. One that is destroyed
is `none`. -/
structure System (α ε : Type) where
  config : futures.Config α ε
  promises : List (Option Promise) := []
  log : List Entry := []

def init (α ε : Type) (n : Nat) : System α ε := { config := futures.init α ε n }

/-- What a thread does: a call of a promise by its number, or any other action. -/
inductive Op (α ε : Type) where
  | promise (await_queue : Option Nat)
  | move (p : Nat)
  | swap (p other : Nat)
  | destroy (p : Nat)
  | get_future (p : Nat)
  | set_value (p : Nat) (v : Value α) (built : Option (Exception ε))
  | set_exception (p : Nat) (x : Option (Exception ε))
  | other (a : Action α ε)

/-- The actions that need a promise. -/
def needsPromise : Action α ε → Bool
  | .promise _ => true
  | .set_value _ _ _ _ => true
  | .set_exception _ _ => true
  | _ => false

namespace System

def object (s : System α ε) (p : Nat) : Option Promise := s.promises[p]?.join

def note (s : System α ε) (es : List Entry) : System α ε := { s with log := s.log ++ es }

def put (s : System α ε) (p : Nat) (o : Option Promise) : System α ε :=
  { s with promises := s.promises.set p o }

def add (s : System α ε) (o : Promise) : System α ε :=
  { s with promises := s.promises ++ [some o] }

/-- Thread `t` is in the code of the client. -/
def inClient (s : System α ε) (t : Nat) : Bool :=
  match s.config.threads[t]? with
  | some (.user _ :: _) => true
  | _ => false

/-- The setter of the state of `o`, which the client calls as its promise `p`. -/
def callSetter (s : System α ε) (t p : Nat) (o : Promise) (a : StateId → Action α ε) :
    Option (System α ε) :=
  match o.state_ with
  | none => some (s.note [.threw p .no_state])
  | some st => (futures.step s.config (t, a st)).map fun c => { s with config := c }

end System

/-- One step of thread `e.1`. -/
def step (s : System α ε) (e : Nat × Op α ε) : Option (System α ε) :=
  match e.2 with
  | .other a =>
    if needsPromise a then none
    else (futures.step s.config (e.1, a)).map fun c => { s with config := c }
  | .promise q =>
    (futures.step s.config (e.1, .promise q)).map fun c =>
      { s with config := c }.add ⟨some s.config.states.length, false⟩
  | .set_value p v built =>
    (s.object p).bind fun o => s.callSetter e.1 p o fun st => .set_value st v built true
  | .set_exception p x =>
    (s.object p).bind fun o => s.callSetter e.1 p o fun st => .set_exception st x
  | .move p =>
    if s.inClient e.1 then
      (s.object p).map fun o => (s.put p (some o.move.2)).add o.move.1
    else none
  | .swap p other =>
    if s.inClient e.1 then
      (s.object p).bind fun o => (s.object other).map fun o' =>
        (s.put p (some (o.swap o').1)).put other (some (o.swap o').2)
    else none
  | .destroy p =>
    if s.inClient e.1 then (s.object p).map fun _ => s.put p none else none
  | .get_future p =>
    if s.inClient e.1 then
      (s.object p).map fun o =>
        match o.get_future with
        | (.ok st, o') => (s.put p (some o')).note [.retrieved st]
        | (.error x, _) => s.note [.threw p x]
    else none

/-- The call that a step makes on the states, if any. -/
def System.action (s : System α ε) : Op α ε → Option (Action α ε)
  | .other a => some a
  | .promise q => some (.promise q)
  | .set_value p v built =>
    ((s.object p).bind Promise.state_).map fun st => .set_value st v built true
  | .set_exception p x => ((s.object p).bind Promise.state_).map fun st => .set_exception st x
  | _ => none

/-- What the contract of the states asks of the client. -/
def Orderly (s : System α ε) (e : Nat × Op α ε) : Prop :=
  ∀ a, s.action e.2 = some a → futures.Orderly s.config (e.1, a)

/-! ## What a step does -/

/-- A step makes its call on the states, or leaves them as they are. -/
theorem step_config {s s' : System α ε} {t : Nat} {op : Op α ε} (h : step s (t, op) = some s') :
    (∃ a, s.action op = some a ∧ futures.step s.config (t, a) = some s'.config) ∨
      (s.action op = none ∧ s'.config = s.config) := by
  have setter : ∀ {p : Nat} {a : StateId → Action α ε},
      ((s.object p).bind fun o => s.callSetter t p o a) = some s' →
      (∃ b, ((s.object p).bind Promise.state_).map a = some b ∧
        futures.step s.config (t, b) = some s'.config) ∨
      (((s.object p).bind Promise.state_).map a = none ∧ s'.config = s.config) := by
    intro p a hs
    obtain ⟨o, ho, hs⟩ := Option.bind_eq_some_iff.mp hs
    unfold System.callSetter at hs
    cases hst : o.state_ with
    | none =>
      simp only [hst, Option.some.injEq] at hs
      subst hs
      exact Or.inr ⟨by simp [ho, hst], rfl⟩
    | some st =>
      simp only [hst, Option.map_eq_some_iff] at hs
      obtain ⟨c, hc, rfl⟩ := hs
      exact Or.inl ⟨a st, by simp [ho, hst], hc⟩
  cases op with
  | other a =>
    simp only [step] at h
    split at h
    · cases h
    · obtain ⟨c, hc, rfl⟩ := Option.map_eq_some_iff.mp h
      exact Or.inl ⟨a, rfl, hc⟩
  | promise q =>
    obtain ⟨c, hc, rfl⟩ := Option.map_eq_some_iff.mp h
    exact Or.inl ⟨_, rfl, hc⟩
  | set_value p v built => exact setter h
  | set_exception p x => exact setter h
  | move p =>
    simp only [step, Option.ite_none_right_eq_some, Option.map_eq_some_iff] at h
    obtain ⟨-, o, ho, rfl⟩ := h
    exact Or.inr ⟨rfl, rfl⟩
  | swap p other =>
    simp only [step, Option.ite_none_right_eq_some, Option.bind_eq_some_iff,
      Option.map_eq_some_iff] at h
    obtain ⟨-, o, ho, o', ho', rfl⟩ := h
    exact Or.inr ⟨rfl, rfl⟩
  | destroy p =>
    simp only [step, Option.ite_none_right_eq_some, Option.map_eq_some_iff] at h
    obtain ⟨-, o, ho, rfl⟩ := h
    exact Or.inr ⟨rfl, rfl⟩
  | get_future p =>
    simp only [step, Option.ite_none_right_eq_some, Option.map_eq_some_iff] at h
    obtain ⟨-, o, ho, rfl⟩ := h
    refine Or.inr ⟨rfl, ?_⟩
    split <;> rfl

/-- A run of the objects is a run of the states. -/
theorem reach_config {n : Nat} {s : System α ε} (h : Reach step Orderly (init α ε n) s) :
    Reach futures.step futures.Orderly (futures.init α ε n) s.config := by
  refine h.invariant (P := fun s => Reach _ _ (futures.init α ε n) s.config) (Reach.start _) ?_
  rintro s ⟨t, op⟩ s' hr ho hs
  rcases step_config hs with ⟨a, ha, hstep⟩ | ⟨-, hc⟩
  · exact hr.next (ho a ha) hstep
  · rw [hc]
    exact hr

/-! ## Who holds a state -/

/-- Promise `p` has the state `st`, and `b` says if its future has been handed out. -/
def Holds (s : System α ε) (p : Nat) (st : StateId) (b : Bool) : Prop :=
  s.object p = some ⟨some st, b⟩

/-- The states whose future has been handed out, in order. -/
def retrieved (l : List Entry) : List StateId :=
  l.filterMap fun e => match e with
    | .retrieved st => some st
    | .threw _ _ => none

@[simp] theorem retrieved_append (l l' : List Entry) :
    retrieved (l ++ l') = retrieved l ++ retrieved l' := List.filterMap_append

@[simp] theorem retrieved_retrieved (st : StateId) : retrieved [.retrieved st] = [st] := rfl

@[simp] theorem retrieved_threw (p : Nat) (x : Errc) : retrieved [.threw p x] = [] := rfl

@[simp] theorem object_note (s : System α ε) (es : List Entry) (p : Nat) :
    (s.note es).object p = s.object p := rfl

theorem object_lt {s : System α ε} {p : Nat} {o : Promise} (h : s.object p = some o) :
    p < s.promises.length := by
  simp only [System.object, Option.join_eq_some_iff] at h
  exact (List.getElem?_eq_some_iff.mp h).1

theorem object_put {s : System α ε} {p : Nat} {o : Promise} (h : s.object p = some o)
    (o' : Option Promise) (q : Nat) :
    (s.put p o').object q = if p = q then o' else s.object q := by
  have hlt := object_lt h
  by_cases hpq : p = q
  · subst hpq
    simp [System.object, System.put, hlt]
  · simp [System.object, System.put, hpq]

theorem object_add (s : System α ε) (o : Promise) (q : Nat) :
    (s.add o).object q = if q = s.promises.length then some o else s.object q := by
  by_cases hq : q = s.promises.length
  · subst hq
    simp [System.object, System.add]
  · simp only [System.object, System.add, hq, if_false]
    by_cases hlt : q < s.promises.length
    · rw [List.getElem?_append_left hlt]
    · rw [List.getElem?_eq_none (by simp; omega), List.getElem?_eq_none (by omega)]

/-- Each state that an object of `s'` has comes from an object of `s`, and from each at most one. -/
def Passed (s s' : System α ε) : Prop :=
  ∃ f : Nat → Nat, (∀ p st b, Holds s' p st b → Holds s (f p) st b) ∧
    ∀ p p' st st' b b', Holds s' p st b → Holds s' p' st' b' → f p = f p' → p = p'

theorem passed_of_eq {s s' : System α ε} (h : s'.promises = s.promises) : Passed s s' := by
  refine ⟨id, fun p st b hp => ?_, fun p p' st st' b b' _ _ he => he⟩
  simpa [Holds, System.object, h] using hp

/-- What a step does to the objects: it passes them on, makes one for a new state, or hands out a
future. -/
inductive Change (s s' : System α ε) : Prop where
  | passed (h : Passed s s') (hlog : retrieved s'.log = retrieved s.log)
  | made (hobj : ∀ p, s'.object p = if p = s.promises.length then
        some ⟨some s.config.states.length, false⟩ else s.object p)
      (hlog : s'.log = s.log) (hp : s.config.states.length ∈ s'.config.promises)
  | got (p : Nat) (st : StateId) (h : Holds s p st false)
      (hobj : ∀ q, s'.object q = if p = q then some ⟨some st, true⟩ else s.object q)
      (hlog : s'.log = s.log ++ [.retrieved st]) (hc : s'.config = s.config)

theorem move_passed {s : System α ε} {p : Nat} {o : Promise} (h : s.object p = some o) :
    Passed s ((s.put p (some o.move.2)).add o.move.1) := by
  have hlen : (s.put p (some o.move.2)).promises.length = s.promises.length := by
    simp [System.put]
  have hobj : ∀ q st b, Holds ((s.put p (some o.move.2)).add o.move.1) q st b →
      (q = s.promises.length ∧ Holds s p st b) ∨
      (q ≠ s.promises.length ∧ q ≠ p ∧ Holds s q st b) := by
    intro q st b hq
    simp only [Holds, object_add, hlen, object_put h] at hq
    split at hq
    · rename_i hn
      exact Or.inl ⟨hn, by simpa [Holds, h, Promise.move] using hq⟩
    · rename_i hn
      split at hq
      · simp [Promise.move] at hq
      · rename_i hp
        exact Or.inr ⟨hn, fun he => hp he.symm, hq⟩
  refine ⟨fun q => if q = s.promises.length then p else q, ?_, ?_⟩
  · intro q st b hq
    rcases hobj q st b hq with ⟨hn, ho⟩ | ⟨hn, -, ho⟩
    · simpa [hn] using ho
    · simpa [hn] using ho
  · intro q q' st st' b b' hq hq' he
    rcases hobj q st b hq with ⟨hn, -⟩ | ⟨hn, hp, -⟩
    · rcases hobj q' st' b' hq' with ⟨hn', -⟩ | ⟨hn', hp', -⟩
      · rw [hn, hn']
      · simp only [hn, if_true, hn', if_false] at he
        exact absurd he.symm hp'
    · rcases hobj q' st' b' hq' with ⟨hn', -⟩ | ⟨hn', hp', -⟩
      · simp only [hn, if_false, hn', if_true] at he
        exact absurd he hp
      · simpa [hn, hn'] using he

@[simp] theorem swap_eq (p other : Promise) : p.swap other = (other, p) := rfl

theorem swap_passed {s : System α ε} {p p' : Nat} {o o' : Promise} (h : s.object p = some o)
    (h' : s.object p' = some o') :
    Passed s ((s.put p (some (o.swap o').1)).put p' (some (o.swap o').2)) := by
  have hput : ∃ o₁, (s.put p (some (o.swap o').1)).object p' = some o₁ := by
    rw [object_put h]
    split
    · exact ⟨_, rfl⟩
    · exact ⟨o', h'⟩
  obtain ⟨o₁, hput⟩ := hput
  refine ⟨fun q => if q = p' then p else if q = p then p' else q, ?_, ?_⟩
  · intro q st b hq
    simp only [Holds, object_put hput, object_put h] at hq
    by_cases hq' : q = p'
    · simpa [hq', Holds, h] using hq
    · by_cases hp : q = p
      · subst hp
        simp only [Ne.symm hq', if_false, if_true] at hq
        simpa [hq', Holds, h'] using hq
      · simp only [Ne.symm hq', Ne.symm hp, if_false] at hq
        simpa [hq', hp, Holds] using hq
  · intro q₁ q₂ st st' b b' _ _ he
    grind

/-- The calls of setters change no object. -/
theorem callSetter_passed {s s' : System α ε} {t p : Nat} {o : Promise}
    {a : StateId → Action α ε} (h : s.callSetter t p o a = some s') : Change s s' := by
  unfold System.callSetter at h
  split at h
  · cases h
    exact .passed (passed_of_eq rfl) (by simp [System.note])
  · obtain ⟨c, -, rfl⟩ := Option.map_eq_some_iff.mp h
    exact .passed (passed_of_eq rfl) rfl

theorem get_future_change {s : System α ε} {p : Nat} {o : Promise} (h : s.object p = some o) :
    Change s (match o.get_future with
      | (.ok st, o') => (s.put p (some o')).note [.retrieved st]
      | (.error x, _) => s.note [.threw p x]) := by
  obtain ⟨st, b⟩ := o
  cases st with
  | none => exact .passed (passed_of_eq rfl) (by simp [Promise.get_future, System.note])
  | some st =>
    cases b with
    | true => exact .passed (passed_of_eq rfl) (by simp [Promise.get_future, System.note])
    | false =>
      refine .got p st h (fun q => ?_) (by simp [Promise.get_future, System.note, System.put])
        (by simp [Promise.get_future, System.note, System.put])
      simp [Promise.get_future, object_put h]

theorem step_change {s s' : System α ε} {t : Nat} {op : Op α ε} (h : step s (t, op) = some s') :
    Change s s' := by
  cases op with
  | other a =>
    simp only [step] at h
    split at h
    · cases h
    · obtain ⟨c, -, rfl⟩ := Option.map_eq_some_iff.mp h
      exact .passed (passed_of_eq rfl) rfl
  | promise q =>
    obtain ⟨c, hc, rfl⟩ := Option.map_eq_some_iff.mp h
    refine .made (fun p => object_add _ _ p) rfl ?_
    -- the state of the promise is the new one
    have hcall : c.promises = s.config.promises ++ [s.config.states.length] := by
      unfold futures.step at hc
      split at hc
      · cases hc
      · split at hc
        · simp only [futures.call, Option.some.injEq] at hc
          rw [← hc]
        · simp at hc
        · cases hc
    simp [System.add, hcall]
  | set_value p v built =>
    obtain ⟨o, -, hs⟩ := Option.bind_eq_some_iff.mp h
    exact callSetter_passed hs
  | set_exception p x =>
    obtain ⟨o, -, hs⟩ := Option.bind_eq_some_iff.mp h
    exact callSetter_passed hs
  | move p =>
    simp only [step, Option.ite_none_right_eq_some, Option.map_eq_some_iff] at h
    obtain ⟨-, o, ho, rfl⟩ := h
    exact .passed (move_passed ho) rfl
  | swap p other =>
    simp only [step, Option.ite_none_right_eq_some, Option.bind_eq_some_iff,
      Option.map_eq_some_iff] at h
    obtain ⟨-, o, ho, o', ho', rfl⟩ := h
    exact .passed (swap_passed ho ho') rfl
  | destroy p =>
    simp only [step, Option.ite_none_right_eq_some, Option.map_eq_some_iff] at h
    obtain ⟨-, o, ho, rfl⟩ := h
    refine .passed ⟨id, fun q st b hq => ?_, fun q q' st st' b b' _ _ he => he⟩ rfl
    simp only [Holds, object_put ho] at hq
    split at hq
    · cases hq
    · exact hq
  | get_future p =>
    simp only [step, Option.ite_none_right_eq_some, Option.map_eq_some_iff] at h
    obtain ⟨-, o, ho, rfl⟩ := h
    exact get_future_change ho

/-- The states of promises stay those of promises. -/
theorem step_promises {s s' : System α ε} {e : Nat × Op α ε} (ho : Owned s.config)
    (hn : Orderly s e) (h : step s e = some s') :
    ∀ st ∈ s.config.promises, st ∈ s'.config.promises := by
  obtain ⟨t, op⟩ := e
  intro st hst
  rcases step_config h with ⟨a, ha, hstep⟩ | ⟨-, hc⟩
  · obtain ⟨k, -, hcalm⟩ := futures.step_calm ho (hn a ha) hstep
    rcases futures.calm_promises hcalm with hp | ⟨hp, -⟩
    · rw [hp]
      exact hst
    · rw [hp]
      exact List.mem_append_left _ hst
  · rw [hc]
    exact hst

/-! ## One object for each state -/

/-- Each state of a promise belongs to one object, and its future is handed out once. -/
structure Held (s : System α ε) : Prop where
  known : ∀ p st b, Holds s p st b → st ∈ s.config.promises
  one_object : ∀ p p' st b b', Holds s p st b → Holds s p' st b' → p = p'
  marked : ∀ p st b, Holds s p st b → (b = true ↔ st ∈ retrieved s.log)
  once : (retrieved s.log).Nodup
  handed : ∀ st ∈ retrieved s.log, st ∈ s.config.promises

theorem step_held {s s' : System α ε} {e : Nat × Op α ε} (h : Held s) (ho : Owned s.config)
    (hn : Orderly s e) (hs : step s e = some s') : Held s' := by
  obtain ⟨t, op⟩ := e
  have hprom := step_promises ho hn hs
  cases step_change hs with
  | passed hpass hlog =>
    obtain ⟨f, hfrom, hinj⟩ := hpass
    refine ⟨fun p st b hp => hprom st (h.known _ st b (hfrom p st b hp)), ?_, ?_, ?_, ?_⟩
    · intro p p' st b b' hp hp'
      exact hinj p p' st st b b' hp hp' (h.one_object _ _ st b b' (hfrom p st b hp)
        (hfrom p' st b' hp'))
    · intro p st b hp
      rw [hlog]
      exact h.marked _ st b (hfrom p st b hp)
    · rw [hlog]
      exact h.once
    · intro st hst
      rw [hlog] at hst
      exact hprom st (h.handed st hst)
  | made hobj hlog hnew =>
    -- no object has the new state
    have hfresh : s.config.states.length ∉ s.config.promises := by
      intro hmem
      exact Nat.lt_irrefl _ (ho.promised _ hmem).1
    have hholds : ∀ p st b, Holds s' p st b →
        (p = s.promises.length ∧ st = s.config.states.length ∧ b = false) ∨
          (st ≠ s.config.states.length ∧ Holds s p st b) := by
      intro p st b hp
      simp only [Holds, hobj] at hp
      split at hp
      · rename_i hpn
        simp only [Option.some.injEq, Promise.mk.injEq] at hp
        exact Or.inl ⟨hpn, hp.1.symm, hp.2.symm⟩
      · exact Or.inr ⟨fun he => hfresh (he ▸ h.known p st b hp), hp⟩
    refine ⟨?_, ?_, ?_, by rw [hlog]; exact h.once, ?_⟩
    · intro p st b hp
      rcases hholds p st b hp with ⟨-, rfl, -⟩ | ⟨-, hp⟩
      · exact hnew
      · exact hprom st (h.known p st b hp)
    · intro p p' st b b' hp hp'
      rcases hholds p st b hp with ⟨hpn, hst, -⟩ | ⟨hst, hp⟩
      · rcases hholds p' st b' hp' with ⟨hpn', -⟩ | ⟨hst', -⟩
        · rw [hpn, hpn']
        · exact absurd hst hst'
      · rcases hholds p' st b' hp' with ⟨-, hst', -⟩ | ⟨-, hp'⟩
        · exact absurd hst' hst
        · exact h.one_object p p' st b b' hp hp'
    · intro p st b hp
      rw [hlog]
      rcases hholds p st b hp with ⟨-, rfl, rfl⟩ | ⟨-, hp⟩
      · simp only [Bool.false_eq_true, false_iff]
        exact fun hmem => hfresh (h.handed _ hmem)
      · exact h.marked p st b hp
    · intro st hst
      rw [hlog] at hst
      exact hprom st (h.handed st hst)
  | got p st hp hobj hlog hc =>
    have hnew : st ∉ retrieved s.log := by
      have := h.marked p st false hp
      simpa using this
    have hlog' : retrieved s'.log = retrieved s.log ++ [st] := by simp [hlog]
    have hholds : ∀ q st' b, Holds s' q st' b →
        (q = p ∧ st' = st ∧ b = true) ∨ (q ≠ p ∧ st' ≠ st ∧ Holds s q st' b) := by
      intro q st' b hq
      simp only [Holds, hobj] at hq
      split at hq
      · rename_i hpq
        simp only [Option.some.injEq, Promise.mk.injEq] at hq
        exact Or.inl ⟨hpq.symm, hq.1.symm, hq.2.symm⟩
      · rename_i hpq
        refine Or.inr ⟨fun he => hpq he.symm, ?_, hq⟩
        rintro rfl
        exact hpq (h.one_object p q st' false b hp hq)
    refine ⟨?_, ?_, ?_, ?_, ?_⟩
    · intro q st' b hq
      rw [hc]
      rcases hholds q st' b hq with ⟨-, rfl, -⟩ | ⟨-, -, hq⟩
      · exact h.known p _ false hp
      · exact h.known q st' b hq
    · intro q q' st' b b' hq hq'
      rcases hholds q st' b hq with ⟨hqp, hst, -⟩ | ⟨-, hst, hq⟩
      · rcases hholds q' st' b' hq' with ⟨hqp', -⟩ | ⟨-, hst', -⟩
        · rw [hqp, hqp']
        · exact absurd hst hst'
      · rcases hholds q' st' b' hq' with ⟨-, hst', -⟩ | ⟨-, -, hq'⟩
        · exact absurd hst' hst
        · exact h.one_object q q' st' b b' hq hq'
    · intro q st' b hq
      rcases hholds q st' b hq with ⟨-, rfl, rfl⟩ | ⟨-, hst, hq⟩
      · simp [hlog']
      · simpa [hlog', hst] using h.marked q st' b hq
    · rw [hlog', List.nodup_append]
      refine ⟨h.once, by simp, fun x hx y hy => ?_⟩
      rw [List.mem_singleton] at hy
      rintro rfl
      exact hnew (hy ▸ hx)
    · intro st' hst'
      rw [hlog', List.mem_append, List.mem_singleton] at hst'
      rw [hc]
      rcases hst' with hst' | rfl
      · exact h.handed st' hst'
      · exact h.known p _ false hp

theorem reach_held {n : Nat} {s : System α ε} (h : Reach step Orderly (init α ε n) s) :
    Held s := by
  have hinit : Held (init α ε n) := by
    refine ⟨?_, ?_, ?_, by simp [init, retrieved], by simp [init, retrieved]⟩
    all_goals simp [Holds, System.object, init]
  refine h.invariant_on (Q := fun s => Owned s.config)
    (fun _ hr => futures.reach_owned (reach_config hr)) hinit ?_
  exact fun _ _ _ ho hh hn hs => step_held hh ho hn hs

/-- In every run no two objects have one state, and no future is handed out twice, however the
objects are moved and swapped: `get_future` of an object with a state gives its future exactly when
no object has given it before, and it tells a lost state from a second call. -/
theorem a_state_belongs_to_one_promise (n : Nat) (s : System α ε)
    (h : Reach step Orderly (init α ε n) s) :
    (∀ p p' st b b', Holds s p st b → Holds s p' st b' → p = p') ∧ (retrieved s.log).Nodup ∧
    ∀ t p s', step s (t, .get_future p) = some s' → ∃ o, s.object p = some o ∧
      ((o.state_ = none ∧ s'.log = s.log ++ [.threw p .no_state]) ∨ ∃ st, o.state_ = some st ∧
        ((st ∈ retrieved s.log ∧ s'.log = s.log ++ [.threw p .future_already_retrieved]) ∨
          (st ∉ retrieved s.log ∧ s'.log = s.log ++ [.retrieved st]))) := by
  have hh := reach_held h
  refine ⟨hh.one_object, hh.once, ?_⟩
  intro t p s' hs
  simp only [step, Option.ite_none_right_eq_some, Option.map_eq_some_iff] at hs
  obtain ⟨-, ⟨st, b⟩, ho, rfl⟩ := hs
  refine ⟨_, ho, ?_⟩
  cases st with
  | none => exact Or.inl ⟨rfl, by simp [Promise.get_future, System.note]⟩
  | some st =>
    have hmark := hh.marked p st b ho
    refine Or.inr ⟨st, rfl, ?_⟩
    cases b with
    | true => exact Or.inl ⟨hmark.mp rfl, by simp [Promise.get_future, System.note]⟩
    | false =>
      have hnew : st ∉ retrieved s.log := by simpa using hmark
      exact Or.inr ⟨hnew, by simp [Promise.get_future, System.note, System.put]⟩

/-- A promise is moved, its future is taken from the new object, and the two are swapped. -/
def movedAndSwapped : List (Nat × Op Unit Unit) :=
  [(0, .promise none), (0, .move 0), (0, .get_future 1), (0, .get_future 0), (0, .swap 0 1)]

theorem a_state_belongs_to_one_promise_here :
    ∃ s : System Unit Unit, Reach step Orderly (init Unit Unit 1) s ∧
      s.log = [.retrieved 0, .threw 0 .no_state] ∧ s.object 0 = some ⟨some 0, true⟩ ∧
      (retrieved s.log).Nodup := by
  have hrun : ∃ s, run step (init Unit Unit 1) movedAndSwapped = some s ∧
      s.log = [.retrieved 0, .threw 0 .no_state] ∧ s.object 0 = some ⟨some 0, true⟩ :=
    ⟨_, rfl, rfl, rfl⟩
  obtain ⟨s, hrun, hlog, hobj⟩ := hrun
  have hr : Reach step Orderly (init Unit Unit 1) s := by
    refine reach_of_run _ _ _ (fun s e he a ha => ?_) hrun
    apply futures.plain_orderly
    simp only [movedAndSwapped, List.mem_cons, List.not_mem_nil, or_false] at he
    rcases he with rfl | rfl | rfl | rfl | rfl <;> cases ha
    rfl
  exact ⟨s, hr, hlog, hobj, (a_state_belongs_to_one_promise 1 s hr).2.1⟩

/-! ## Lost promises -/

/-- A state changes without a new outcome. -/
theorem unready_update {c : futures.Config α ε} {i st : StateId} {s u : futures.State α ε}
    (hi : c.states[i]? = some s) (hu : ready u = ready s) (h : ¬ Ready c st) :
    ¬ Ready (c.update i u) st := by
  rintro ⟨s', hs', hr⟩
  by_cases hne : i = st
  · subst hne
    rw [futures.update_self u hi] at hs'
    cases hs'
    exact h ⟨s, hi, by rw [← hu, hr]⟩
  · rw [futures.update_ne u hne] at hs'
    exact h ⟨s', hs', hr⟩

theorem unready_append {c c' : futures.Config α ε} {st : StateId} {l : List (futures.State α ε)}
    (hs : c'.states = c.states ++ l) (hst : st < c.states.length) (h : ¬ Ready c st) :
    ¬ Ready c' st := by
  rintro ⟨s', hs', hr⟩
  rw [hs, List.getElem?_append_left hst] at hs'
  exact h ⟨s', hs', hr⟩

theorem unready_of_eq {c c' : futures.Config α ε} {st : StateId} (hs : c'.states = c.states)
    (h : ¬ Ready c st) : ¬ Ready c' st := by
  rintro ⟨s', hs', hr⟩
  exact h ⟨s', hs ▸ hs', hr⟩

/-- A setter of another state. -/
theorem unready_set {c c' : futures.Config α ε} {t : Nat} {a : Action α ε} {i st : StateId}
    {allow : Bool} {k : List (futures.Frame α ε)} (hm : futures.SetMove c t a i allow k c')
    (hne : i ≠ st) (h : ¬ Ready c st) : ¬ Ready c' st := by
  have settled : ∀ s u, c' = futures.settle c t i allow s u k → ¬ Ready c' st := by
    rintro s u rfl ⟨s', hs', hr⟩
    simp only [futures.settle, futures.Config.put] at hs'
    rw [futures.update_ne (c := c.note _) _ hne] at hs'
    exact h ⟨s', hs', hr⟩
  cases hm with
  | value s w => exact settled _ _ rfl
  | exception s x => exact settled _ _ rfl
  | ignored => exact unready_of_eq rfl h
  | already => exact unready_of_eq rfl h
  | built => exact unready_of_eq rfl h

/-- A state that nothing owns gets its outcome from the client only. -/
theorem unset_stays {c c' : futures.Config α ε} {t : Nat} {a : Action α ε} {st : StateId}
    (hstep : futures.step c (t, a) = some c') (hst : st < c.states.length)
    (hown : futures.owners c st = 0) (hv : ∀ v b al, a ≠ .set_value st v b al)
    (hx : ∀ x, a ≠ .set_exception st x) (h : ¬ Ready c st) : ¬ Ready c' st := by
  obtain ⟨-, k, hk, hm⟩ := futures.step_moves hstep
  have hstack := futures.stackOwns_le st hk
  have registered : ∀ {d : futures.Config α ε} {i s kont k'}, d.states[i]? = some s →
      ¬ Ready d st → ∀ u : futures.State α ε, ready u = ready s →
      ¬ Ready (((d.enroll i).update i { u with continuations_ := kont }).put t k') st := by
    intro d i s kont k' hi hd u hu
    exact unready_of_eq rfl (unready_update (c := d.enroll i) hi hu hd)
  cases hm with
  | local_ => exact unready_of_eq rfl h
  | promise => exact unready_append (l := [_]) rfl hst h
  | made_ready => exact unready_append (l := [_]) rfl hst h
  | when_all_ready => exact unready_append (l := [_]) rfl hst h
  | add hadd hlock =>
    obtain ⟨l, hl, -⟩ := hadd.new_states
    have h₁ := unready_append hl hst h
    obtain ⟨s, hi, ⟨-, rfl⟩ | ⟨-, rfl⟩⟩ := futures.lockedAdd.spec hlock
    · exact unready_of_eq rfl h₁
    · exact registered hi h₁ s rfl
  | set hset hlock =>
    refine unready_set (hset.move hlock) ?_ h
    rintro rfl
    -- the setters of library code own their state
    cases hset with
    | set_value => exact hv _ _ _ rfl
    | set_exception => exact hx _ rfl
    | try_set =>
      simp only [futures.stackOwns_cons, futures.Frame.owns, futures.one_self] at hstack
      omega
    | handler =>
      simp only [futures.stackOwns_cons, futures.Frame.owns, futures.one_self] at hstack
      omega
    | set_prm =>
      simp only [futures.stackOwns_cons, futures.Frame.owns, futures.one_self] at hstack
      omega
  | wait hw =>
    obtain ⟨s, hi, ⟨-, rfl⟩ | ⟨-, -, rfl⟩ | ⟨-, -, rfl⟩⟩ := futures.lockedWait.spec hw
    · exact unready_of_eq rfl h
    · exact registered (s := s) hi h { s with block_ := some false } rfl
    · exact unready_of_eq rfl h
  | get hw =>
    obtain ⟨s, hi, ⟨-, rfl⟩ | ⟨-, -, rfl⟩ | ⟨-, -, rfl⟩⟩ := futures.lockedWait.spec hw
    · exact unready_of_eq rfl h
    · exact registered (s := s) hi h { s with block_ := some false } rfl
    · exact unready_of_eq rfl h
  | dec hd =>
    unfold futures.execDec at hd
    split at hd
    · cases hd
    · split at hd
      · cases hd
        exact unready_of_eq rfl h
      · cases hd
        exact unready_of_eq rfl h
  | signal hi => exact unready_of_eq rfl (unready_update hi rfl h)
  | run => exact unready_of_eq rfl h
  | throw_ => exact unready_of_eq rfl h
  | fault => exact unready_of_eq rfl h

/-- A step changes the stack of its own thread only. -/
theorem threads_apart {c c' : futures.Config α ε} {t u : Nat} {a : Action α ε} (hne : t ≠ u)
    (hstep : futures.step c (t, a) = some c') : c'.threads[u]? = c.threads[u]? := by
  obtain ⟨-, k, -, hm⟩ := futures.step_moves hstep
  have set : ∀ {d : futures.Config α ε} {k'}, c'.threads = d.threads.set t k' →
      d.threads = c.threads → c'.threads[u]? = c.threads[u]? := by
    intro d k' h hd
    rw [h, hd, List.getElem?_set_ne hne]
  cases hm with
  | local_ => exact set rfl rfl
  | promise => rfl
  | made_ready => exact set (d := c) rfl rfl
  | when_all_ready => exact set (d := c) rfl rfl
  | add hadd hlock =>
    have hthreads := (hadd.left 0).1
    obtain ⟨s, hi, ⟨-, rfl⟩ | ⟨-, rfl⟩⟩ := futures.lockedAdd.spec hlock
    · exact set rfl hthreads
    · exact set rfl hthreads
  | set hset hlock =>
    cases hset.move hlock with
    | value => exact set (d := c) rfl rfl
    | exception => exact set (d := c) rfl rfl
    | ignored => exact set (d := c) rfl rfl
    | already => exact set (d := c) rfl rfl
    | built => exact set (d := c) rfl rfl
  | wait hw =>
    obtain ⟨s, hi, ⟨-, rfl⟩ | ⟨-, -, rfl⟩ | ⟨-, -, rfl⟩⟩ := futures.lockedWait.spec hw
    · exact set (d := c) rfl rfl
    · exact set (d := c) rfl rfl
    · exact set (d := c) rfl rfl
  | get hw =>
    obtain ⟨s, hi, ⟨-, rfl⟩ | ⟨-, -, rfl⟩ | ⟨-, -, rfl⟩⟩ := futures.lockedWait.spec hw
    · exact set (d := c) rfl rfl
    · exact set (d := c) rfl rfl
    · exact set (d := c) rfl rfl
  | dec hd =>
    unfold futures.execDec at hd
    split at hd
    · cases hd
    · split at hd
      · cases hd
        exact set (d := c) rfl rfl
      · cases hd
        exact set (d := c) rfl rfl
  | signal => exact set (d := c) rfl rfl
  | run => exact set (d := c) rfl rfl
  | throw_ => exact set (d := c) rfl rfl
  | fault => rfl

/-- A thread that waits for a state stays there until the state is ready. -/
theorem waiting_stays {c c' : futures.Config α ε} {t u : Nat} {a : Action α ε} {x : StateId}
    {g : Bool} {k : List (futures.Frame α ε)} (hg : Good c) (hx : ¬ Ready c x)
    (hk : c.threads[u]? = some (.waiting x g :: k)) (hstep : futures.step c (t, a) = some c') :
    c'.threads[u]? = some (.waiting x g :: k) := by
  by_cases hne : t = u
  · subst hne
    simp only [futures.step, hk] at hstep
    split at hstep
    · cases hstep
    · cases a with
      | tick built =>
        simp only [futures.tick] at hstep
        split at hstep
        · cases hstep
        · rename_i s hs
          split at hstep
          · rename_i hb
            exact absurd ⟨s, hs, (hg.states x s hs).signalled hb⟩ hx
          · cases hstep
      | _ => cases hstep
  · rw [threads_apart hne hstep, hk]

/-- A continuation of `st` is to set `x`, or to count down for `when_all_ready`, whose promise `x`
is. -/
inductive Depends (c : futures.Config α ε) (st x : StateId) : Prop where
  | sets (q : futures.Id × futures.Cont) (hq : Stored c st q) (hown : 0 < q.2.owns x)
  | counts (i : futures.Id) (n : futures.CounterId) (ctr : futures.Counter)
      (hq : Stored c st (i, .dec n)) (hn : c.counters[n]? = some ctr) (hp : ctr.prm = x)

/-- `x` waits for `st`, directly or through states in between. -/
abbrev WaitsFor (c : futures.Config α ε) : StateId → StateId → Prop :=
  Relation.ReflTransGen (Depends c)

/-- A state that waits for a continuation has an owner, so it is not ready. -/
theorem Depends.not_ready {c : futures.Config α ε} {st x : StateId} (h : Depends c st x)
    (ho : Owned c) (hk : CountersKept c) : ¬ Ready c x := by
  cases h with
  | sets q hq hown =>
    exact ho.not_ready (Nat.lt_of_lt_of_le hown (futures.owners_of_stored hq _))
  | counts i n ctr hq hn hp => exact hp ▸ ho.not_ready (hk.owners_of_dec hq hn)

/-- A continuation that stays stored leaves its dependency as it is. -/
theorem Depends.stays {c c' : futures.Config α ε} {t : Nat} {k : List (futures.Frame α ε)}
    {st x : StateId} (h : Depends c st x) (hk : c.threads[t]? = some k)
    (hc : futures.Calm c t k c') (hkept : CountersKept c)
    (hstored : ∀ q, Stored c st q → Stored c' st q) : Depends c' st x := by
  cases h with
  | sets q hq hown => exact .sets q (hstored q hq) hown
  | counts i n ctr hq hn hp =>
    obtain ⟨ctr', hn', hp', -⟩ := futures.calm_counter hk hc hn (hkept n ctr hn)
    exact .counts i n ctr' (hstored _ hq) hn' (hp'.trans hp)

/-- What waits for a state that is not ready goes on to wait for it. -/
theorem waitsFor_stays {c c' : futures.Config α ε} {t : Nat} {k : List (futures.Frame α ε)}
    {st x : StateId} (hg : Good c') (ho : Owned c') (hkept : CountersKept c)
    (hkept' : CountersKept c') (hk : c.threads[t]? = some k) (hc : futures.Calm c t k c')
    (hst : ¬ Ready c' st) (h : WaitsFor c st x) : WaitsFor c' st x ∧ ¬ Ready c' x := by
  induction h with
  | refl => exact ⟨.refl, hst⟩
  | tail _ hd ih =>
    obtain ⟨hpath, hy⟩ := ih
    have hd' := hd.stays hk hc hkept fun q hq => by
      rcases futures.calm_moved hk hc _ q hq with hq | ⟨cs, ⟨k', hk', hf⟩, -⟩
      · exact hq
      · -- the loop of a setter runs for ready states only
        exact absurd (hg.threads k' hk' _ hf).1 hy
    exact ⟨hpath.tail hd', hd'.not_ready ho hkept'⟩

/-- The promise of `st` is gone, and `st` has no outcome. -/
structure Lost (s : System α ε) (st : StateId) : Prop where
  promised : st ∈ s.config.promises
  gone : ∀ p b, ¬ Holds s p st b
  unset : ¬ Ready s.config st

/-- The client sets a state through an object that has it. -/
theorem set_through_object {s s' : System α ε} {t : Nat} {op : Op α ε} {a : Action α ε}
    {st : StateId} (h : step s (t, op) = some s') (ha : s.action op = some a)
    (hset : (∃ v b al, a = .set_value st v b al) ∨ ∃ x, a = .set_exception st x) :
    ∃ p b, Holds s p st b := by
  have object : ∀ p, (s.object p).bind Promise.state_ = some st → ∃ p b, Holds s p st b := by
    intro p hp
    obtain ⟨⟨st', b⟩, ho, hst⟩ := Option.bind_eq_some_iff.mp hp
    simp only at hst
    exact ⟨p, b, by rw [Holds, ho, hst]⟩
  cases op with
  | other a' =>
    simp only [System.action, Option.some.injEq] at ha
    subst ha
    rcases hset with ⟨v, b, al, rfl⟩ | ⟨x, rfl⟩
    · simp [step, needsPromise] at h
    · simp [step, needsPromise] at h
  | promise q =>
    simp only [System.action, Option.some.injEq] at ha
    subst ha
    rcases hset with ⟨v, b, al, he⟩ | ⟨x, he⟩ <;> cases he
  | set_value p v built =>
    obtain ⟨st', hp, rfl⟩ := Option.map_eq_some_iff.mp ha
    rcases hset with ⟨v', b, al, he⟩ | ⟨x, he⟩
    · cases he
      exact object p hp
    · cases he
  | set_exception p x =>
    obtain ⟨st', hp, rfl⟩ := Option.map_eq_some_iff.mp ha
    rcases hset with ⟨v', b, al, he⟩ | ⟨x', he⟩
    · cases he
    · cases he
      exact object p hp
  | move p => cases ha
  | swap p other => cases ha
  | destroy p => cases ha
  | get_future p => cases ha

theorem step_lost {s s' : System α ε} {e : Nat × Op α ε} {st : StateId} (h : Lost s st)
    (ho : Owned s.config) (hn : Orderly s e) (hs : step s e = some s') : Lost s' st := by
  obtain ⟨t, op⟩ := e
  obtain ⟨hlt, hown⟩ := ho.promised st h.promised
  refine ⟨step_promises ho hn hs st h.promised, ?_, ?_⟩
  · intro p b hp
    cases step_change hs with
    | passed hpass =>
      obtain ⟨f, hfrom, -⟩ := hpass
      exact h.gone _ b (hfrom p st b hp)
    | made hobj =>
      simp only [Holds, hobj] at hp
      split at hp
      · simp only [Option.some.injEq, Promise.mk.injEq] at hp
        exact Nat.ne_of_lt hlt hp.1.symm
      · exact h.gone p b hp
    | got q st' hq hobj =>
      simp only [Holds, hobj] at hp
      split at hp
      · simp only [Option.some.injEq, Promise.mk.injEq] at hp
        rw [hp.1] at hq
        exact h.gone q false hq
      · exact h.gone p b hp
  · rcases step_config hs with ⟨a, ha, hstep⟩ | ⟨-, hc⟩
    · apply unset_stays hstep hlt hown _ _ h.unset
      · rintro v b al rfl
        obtain ⟨p, b', hp⟩ := set_through_object hs ha (Or.inl ⟨v, b, al, rfl⟩)
        exact h.gone p b' hp
      · rintro x rfl
        obtain ⟨p, b', hp⟩ := set_through_object hs ha (Or.inr ⟨x, rfl⟩)
        exact h.gone p b' hp
    · rw [hc]
      exact h.unset

/-- From `c` to `c'` nothing has happened to `x`: it is not ready, its continuations are still there
and have not been called, and the threads that waited for it do so still. -/
structure Stuck (c c' : futures.Config α ε) (x : StateId) : Prop where
  unready : ¬ Ready c' x
  stored : ∀ q, Stored c x q → Stored c' x q
  uncalled : ∀ q, Stored c x q → .invoked q.1 ∉ c'.log
  waiting : ∀ (u : Nat) g k, c.threads[u]? = some (.waiting x g :: k) →
    c'.threads[u]? = some (.waiting x g :: k)

/-- A stored continuation has not been called. -/
theorem stored_uncalled {c : futures.Config α ε} (hg : Good c) {x : StateId}
    {q : futures.Id × futures.Cont} (hq : Stored c x q) : .invoked q.1 ∉ c.log := by
  intro hmem
  obtain ⟨y, hy, hready⟩ := hg.log _ hmem
  have hunready := hq.not_ready hg
  obtain ⟨s, hs, hmem'⟩ := hq
  have hx := ((hg.states x s hs).conts q hmem').1
  rw [hx] at hy
  cases hy
  exact hunready hready

theorem stuck_start {c : futures.Config α ε} (hg : Good c) {x : StateId} (hx : ¬ Ready c x) :
    Stuck c c x :=
  ⟨hx, fun _ hq => hq, fun _ hq => stored_uncalled hg hq, fun _ _ _ hk => hk⟩

theorem step_stuck {c c' c'' : futures.Config α ε} {t : Nat} {a : Action α ε} {x : StateId}
    (h : Stuck c c' x) (hg : Good c') (hg' : Good c'') (ho : Owned c')
    (hn : futures.Orderly c' (t, a)) (hs : futures.step c' (t, a) = some c'')
    (hx : ¬ Ready c'' x) : Stuck c c'' x := by
  obtain ⟨k, hk, hcalm⟩ := futures.step_calm ho hn hs
  have hstored : ∀ q, Stored c x q → Stored c'' x q := by
    intro q hq
    rcases futures.calm_moved hk hcalm x q (h.stored q hq) with hq' | ⟨cs, ⟨k', hk', hf⟩, -⟩
    · exact hq'
    · exact absurd (hg'.threads k' hk' _ hf).1 hx
  refine ⟨hx, hstored, fun q hq => stored_uncalled hg' (hstored q hq), ?_⟩
  intro u g k₀ hk₀
  exact waiting_stays hg h.unready (h.waiting u g k₀ hk₀) hs

/-- When the last object of a promise is gone before it is set, no exception takes its place: in
every run from there neither its state nor any state that waits for it is ever ready, their
continuations are never called, and the threads that wait for them never go on. -/
theorem a_lost_promise_is_never_kept (n : Nat) (s s' : System α ε) (st x : StateId)
    (h : Reach step Orderly (init α ε n) s) (hl : Lost s st) (hx : WaitsFor s.config st x)
    (h' : Reach step Orderly s s') : Stuck s.config s'.config x := by
  have known : ∀ u, Reach step Orderly s u →
      Good u.config ∧ Owned u.config ∧ FreshCounters u.config ∧ CountersKept u.config := by
    intro u hu
    have hr := reach_config (h.trans hu)
    exact ⟨(futures.reach_ordered hr).good, futures.reach_owned hr, futures.reach_fresh hr,
      futures.reach_countersKept hr⟩
  obtain ⟨hg, ho, -, hkept⟩ := known s (Reach.start s)
  have hunready : ¬ Ready s.config x := by
    -- each state on the way is set by a continuation of the one before
    rcases Relation.ReflTransGen.cases_tail hx with rfl | ⟨y, -, hd⟩
    · exact hl.unset
    · exact hd.not_ready ho hkept
  refine (h'.invariant_on
    (P := fun u => Lost u st ∧ WaitsFor u.config st x ∧ Stuck s.config u.config x)
    known ⟨hl, hx, stuck_start hg hunready⟩ ?_).2.2
  rintro u ⟨t, op⟩ u' ⟨hg, ho, hfresh, hkept⟩ ⟨hl, hx, hstuck⟩ hn hs
  have hl' := step_lost hl ho hn hs
  refine ⟨hl', ?_⟩
  rcases step_config hs with ⟨a, ha, hstep⟩ | ⟨-, hc⟩
  · have hn' := hn a ha
    have hg' := futures.step_good hg hn'.1 hstep
    have ho' := futures.step_owned ho hn' hstep
    obtain ⟨k, hk, hcalm⟩ := futures.step_calm ho hn' hstep
    have hkept' := futures.calm_countersKept hkept hfresh hk hcalm
    obtain ⟨hx', hunready'⟩ := waitsFor_stays hg' ho' hkept hkept' hk hcalm hl'.unset hx
    exact ⟨hx', step_stuck hstuck hg hg' ho hn' hstep hunready'⟩
  · rw [hc]
    exact ⟨hx, hstuck⟩

/-- A thread makes a promise, a `then` on it and a `when_all_ready` of that, and destroys the promise.
The other thread waits for the result of `when_all_ready`. -/
def destroyed : List (Nat × Op Unit Unit) :=
  [(0, .promise none), (0, .other (.then_ (some 0) (.then_ 7))),
    (0, .other (.when_all_ready [some 1] none)), (0, .other (.tick none)), (0, .other (.tick none)),
    (1, .other (.wait (some 2))), (0, .destroy 0)]

theorem a_lost_promise_is_never_kept_here :
    ∃ s : System Unit Unit, Reach step Orderly (init Unit Unit 2) s ∧ Lost s 0 ∧
      s.config.threads[1]? = some [.waiting 2 false, .user .main] ∧
      ∀ s', Reach step Orderly s s' → Stuck s.config s'.config 2 := by
  have hrun : ∃ s, run step (init Unit Unit 2) destroyed = some s ∧
      s.promises = [none] ∧ 0 ∈ s.config.promises ∧ s.config.states[0]?.map ready = some false ∧
      (s.config.states[0]?.map FutureState.continuations_ =
        some [(0, .invoke_and_set_value 0 1 (.then_ 7))]) ∧
      (s.config.states[1]?.map FutureState.continuations_ = some [(1, .dec 0)]) ∧
      s.config.counters = [⟨1, 2⟩] ∧
      s.config.threads[1]? = some [.waiting 2 false, .user .main] :=
    ⟨_, rfl, rfl, by decide, rfl, rfl, rfl, rfl, rfl⟩
  obtain ⟨s, hrun, hobj, hp, hready, hconts, hconts₁, hctrs, hk⟩ := hrun
  have hr : Reach step Orderly (init Unit Unit 2) s := by
    refine reach_of_run _ _ _ (fun s e he a ha => ?_) hrun
    apply futures.plain_orderly
    simp only [destroyed, List.mem_cons, List.not_mem_nil, or_false] at he
    rcases he with rfl | rfl | rfl | rfl | rfl | rfl | rfl <;> cases ha <;> rfl
  obtain ⟨s₀, hs₀, hready⟩ := Option.map_eq_some_iff.mp hready
  obtain ⟨s₁, hs₁, hconts₁⟩ := Option.map_eq_some_iff.mp hconts₁
  rw [hs₀, Option.map_some, Option.some.injEq] at hconts
  have hl : Lost s 0 := by
    refine ⟨hp, fun p b hb => ?_, ?_⟩
    · simp only [Holds, System.object, hobj] at hb
      cases p with
      | zero => simp at hb
      | succ p => simp at hb
    · rintro ⟨u, hu, hru⟩
      rw [hs₀] at hu
      cases hu
      rw [hready] at hru
      cases hru
  have hfirst : Depends s.config 0 1 :=
    .sets (0, .invoke_and_set_value 0 1 (.then_ 7)) ⟨s₀, hs₀, by simp [hconts]⟩ (by decide)
  have hlast : Depends s.config 1 2 :=
    .counts 1 0 ⟨1, 2⟩ ⟨s₁, hs₁, by simp [hconts₁]⟩ (by simp [hctrs]) rfl
  have hx : WaitsFor s.config 0 2 := .tail (.single hfirst) hlast
  exact ⟨s, hr, hl, hk, fun s' hs' => a_lost_promise_is_never_kept 2 s s' 0 2 hr hl hx hs'⟩

end ltl.promise_objects
