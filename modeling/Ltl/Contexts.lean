-- Contexts (ltlcontext.hpp and its three implementations, task_context.cpp,
-- current_task_context.cpp): jumps between stacks, and the resume and yield of a
-- task made of them.
import Ltl.Coroutines

open runs
open coroutines (State Steps)

namespace ltl.context

/-! ## Contexts and jumps -/

/-- A context object: the one of `create_main_context` for a thread, or the `own_` of a task
context. -/
inductive Ref where
  | main (t : Nat)
  | own (i : Nat)
  deriving DecidableEq, Repr

/-- A stack, whose it is and what it goes on with. -/
inductive Stack (μ κ : Type) where
  | main (t : Nat) (m : μ)
  | own (i : Nat) (k : κ)
  deriving DecidableEq, Repr

/-- The context whose stack it is. -/
def Stack.ref {μ κ : Type} : Stack μ κ → Ref
  | .main t _ => .main t
  | .own i _ => .own i

inductive BackEnd where
  | ucontext
  | boostcontext
  | fibers
  deriving DecidableEq, Repr

/-- What the primitives of the platform work on: `regs` is the stack that a thread runs, `fiber` the
context that it is in, and `saved` what has been saved for a context. -/
structure Cpu (μ κ : Type) where
  regs : Nat → Stack μ κ
  fiber : Nat → Ref
  saved : Ref → Option (Stack μ κ)

/-- `current` is the thread local value of `current_task_context`, and `main_` that member of a task
context, as the thread whose main context it is. -/
structure Machine (μ κ : Type) extends Cpu μ κ where
  current : Nat → Option Nat
  main_ : Nat → Option Nat

variable {μ κ : Type}

/-! ## The primitives of the platform -/

/-- What the three implementations call. `getcontext` gives what it saves of the stack that runs. A
new context `i` goes on with `k`, and a switch of thread `t` goes from `ofc` to `nfc`. -/
structure Primitives (μ κ : Type) where
  getcontext : Stack μ κ → Option (Stack μ κ)
  makecontext : Cpu μ κ → (i : Nat) → (k : κ) → Cpu μ κ
  swapcontext : Cpu μ κ → (t : Nat) → (ofc nfc : Ref) → Cpu μ κ
  make_fcontext : Cpu μ κ → (i : Nat) → (k : κ) → Cpu μ κ
  jump_fcontext : Cpu μ κ → (t : Nat) → (ofc nfc : Ref) → Cpu μ κ
  CreateFiber : Cpu μ κ → (i : Nat) → (k : κ) → Cpu μ κ
  SwitchToFiber : Cpu μ κ → (t : Nat) → (nfc : Ref) → Cpu μ κ

/-- Context `i` has a stack that goes on with `k`. -/
structure Created (c c' : Cpu μ κ) (i : Nat) (k : κ) : Prop where
  regs : c'.regs = c.regs
  fiber : c'.fiber = c.fiber
  saved : c'.saved (.own i) = some (.own i k)
  others : ∀ r, r ≠ .own i → c'.saved r = c.saved r

/-- `load` is another context than `save`, and what is saved there is a stack that no thread
runs. -/
structure CanSwitch (c : Cpu μ κ) (save load : Ref) (k : Stack μ κ) : Prop where
  apart : save ≠ load
  saved : c.saved load = some k
  idle : ∀ t, (c.regs t).ref ≠ k.ref

/-- Thread `t` has saved its stack in `save` and goes on with `k` in the context `load`. What is
left there is not said. -/
structure Switched (c c' : Cpu μ κ) (t : Nat) (save load : Ref) (k : Stack μ κ) : Prop where
  regs : c'.regs = Function.update c.regs t k
  fiber : c'.fiber = Function.update c.fiber t load
  saved : c'.saved save = some (c.regs t)
  others : ∀ r, r ≠ save → r ≠ load → c'.saved r = c.saved r

/-- What the documentation of the primitives promises when they do not fail. Nothing is said of a
switch to a stack that a thread runs. `makecontext` wants a context that `getcontext` has filled in,
`swapcontext` and `jump_fcontext` save in `ofc`, and `SwitchToFiber` in the fiber that the thread is
in. -/
structure Primitives.Documented (p : Primitives μ κ) : Prop where
  makecontext : ∀ c i k, (∃ s, c.saved (.own i) = p.getcontext s) →
    (∀ t, (c.regs t).ref ≠ .own i) → Created c (p.makecontext c i k) i k
  swapcontext : ∀ c t ofc nfc k, CanSwitch c ofc nfc k →
    Switched c (p.swapcontext c t ofc nfc) t ofc nfc k
  make_fcontext : ∀ c i k, (∀ t, (c.regs t).ref ≠ .own i) → Created c (p.make_fcontext c i k) i k
  jump_fcontext : ∀ c t ofc nfc k, CanSwitch c ofc nfc k →
    Switched c (p.jump_fcontext c t ofc nfc) t ofc nfc k
  CreateFiber : ∀ c i k, (∀ t, (c.regs t).ref ≠ .own i) → Created c (p.CreateFiber c i k) i k
  SwitchToFiber : ∀ c t nfc k, CanSwitch c (c.fiber t) nfc k →
    Switched c (p.SwitchToFiber c t nfc) t (c.fiber t) nfc k

/-! ## The three implementations -/

def jump (p : Primitives μ κ) (b : BackEnd) (c : Cpu μ κ) (t : Nat) (ofc nfc : Ref) : Cpu μ κ :=
  match b with
  | .ucontext => p.swapcontext c t ofc nfc
  | .boostcontext => p.jump_fcontext c t ofc nfc
  | .fibers => p.SwitchToFiber c t nfc

/-- `create_context`, called on thread `t`: `k` is the call of `fn(vp)`, which the trampoline of
Boost and the `fiberproc` of fibers make. -/
def create_context (p : Primitives μ κ) (b : BackEnd) (c : Cpu μ κ) (t i : Nat) (k : κ) : Cpu μ κ :=
  match b with
  | .ucontext =>
    -- the constructor of `context` comes first
    p.makecontext { c with
      saved := Function.update c.saved (.own i) (p.getcontext (c.regs t)) } i k
  | .boostcontext => p.make_fcontext c i k
  | .fibers => p.CreateFiber c i k

/-- What `create_main_context` saves: only `ucontext` fills in the context. -/
def create_main_context (p : Primitives μ κ) (b : BackEnd) (t : Nat) (m : μ) :
    Option (Stack μ κ) :=
  match b with
  | .ucontext => p.getcontext (.main t m)
  | .boostcontext => none
  | .fibers => none

/-- Threads with a main context each, which they are in, and no task context yet. -/
def start (p : Primitives μ κ) (b : BackEnd) (main : Nat → μ) : Machine μ κ where
  regs t := .main t (main t)
  fiber := .main
  saved
    | .main t => create_main_context p b t (main t)
    | .own _ => none
  current _ := none
  main_ _ := none

/-! ## Task contexts -/

/-- `task_context::resume` of context `i` on thread `t`. A failed assertion is `none`. -/
def resume (p : Primitives μ κ) (b : BackEnd) (m : Machine μ κ) (t i : Nat) :
    Option (Machine μ κ) :=
  match m.current t, m.main_ i with
  | none, some h =>
    some { m with
      toCpu := jump p b m.toCpu t (.main h) (.own i)
      current := Function.update m.current t (some i) }
  | _, _ => none

/-- `task_context::yield` of context `i` on thread `t`. -/
def yield (p : Primitives μ κ) (b : BackEnd) (m : Machine μ κ) (t i : Nat) :
    Option (Machine μ κ) :=
  match m.current t, m.main_ i with
  | some _, some h =>
    some { m with
      toCpu := jump p b m.toCpu t (.own i) (.main h)
      current := Function.update m.current t none }
  | _, _ => none

/-- The code on thread `t` goes on with `m` or `k`, makes a task context with the main context of
the thread, or calls `resume` or `yield`. -/
inductive Event (μ κ : Type) where
  | main (t : Nat) (m : μ)
  | own (t : Nat) (k : κ)
  | create (t i : Nat) (k : κ)
  | resume (t i : Nat)
  | yield (t i : Nat)

def step (p : Primitives μ κ) (b : BackEnd) (m : Machine μ κ) : Event μ κ → Option (Machine μ κ)
  | .main t k =>
    match m.regs t with
    | .main u _ => some { m with regs := Function.update m.regs t (.main u k) }
    | .own _ _ => none
  | .own t k =>
    match m.regs t with
    | .main _ _ => none
    | .own i _ => some { m with regs := Function.update m.regs t (.own i k) }
  | .create t i k =>
    match m.main_ i with
    | none => some { m with
        toCpu := create_context p b m.toCpu t i k
        main_ := Function.update m.main_ i (some t) }
    | some _ => none
  | .resume t i => resume p b m t i
  | .yield t i => yield p b m t i

/-- A context is resumed on the thread that made it, and yields when it is the current one. -/
def OwnThread (m : Machine μ κ) : Event μ κ → Prop
  | .resume t i => m.main_ i = some t
  | .yield t i => m.current t = some i
  | _ => True

instance (m : Machine μ κ) : ∀ e, Decidable (OwnThread m e)
  | .main _ _ => isTrue trivial
  | .own _ _ => isTrue trivial
  | .create _ _ _ => isTrue trivial
  | .resume t i => inferInstanceAs (Decidable (m.main_ i = some t))
  | .yield t i => inferInstanceAs (Decidable (m.current t = some i))

/-! ## Contexts are coroutines -/

/-- The stack that thread `t` is on, when it is in coroutine `i` or in none. -/
def stackOf (a : State μ κ) (t : Nat) : Option Nat → Option (Stack μ κ)
  | none => some (.main t (a.main t))
  | some i => (a.own i).map (fun p => .own i p.2)

def fiberOf (t : Nat) : Option Nat → Ref
  | none => .main t
  | some i => .own i

/-- The contexts hold the stacks of the coroutines: what runs is in `regs`, and what does not is
saved where the next jump looks for it. -/
structure Holds (a : State μ κ) (m : Machine μ κ) : Prop where
  sound : coroutines.Sound a
  current : m.current = a.active
  runs : ∀ t, stackOf a t (a.active t) = some (m.regs t)
  fiber : ∀ t, m.fiber t = fiberOf t (a.active t)
  mains : ∀ t i, a.active t = some i → m.saved (.main t) = some (.main t (a.main t))
  owns : ∀ i t k, a.own i = some (t, k) → a.active t ≠ some i → m.saved (.own i) = some (.own i k)
  made : ∀ i, m.main_ i = (a.own i).map Prod.fst

theorem start_holds (p : Primitives μ κ) (b : BackEnd) (main : Nat → μ) :
    Holds (coroutines.start main) (start p b main) where
  sound := coroutines.start_sound main
  current := rfl
  runs _ := rfl
  fiber _ := rfl
  mains _ _ h := by cases h
  owns _ _ _ h := by cases h
  made _ := rfl

/-- What the event is for the coroutines. -/
def Event.toCoroutine : Event μ κ → coroutines.Event μ κ
  | .main t m => .main t m
  | .own t k => .own t k
  | .create t i k => .create t i k
  | .resume t i => .resume t i
  | .yield t _ => .yield t

/-- A jump out of the context that the thread is in does the same on each back end. -/
theorem Primitives.Documented.jump {p : Primitives μ κ} (hp : p.Documented) (b : BackEnd)
    {c : Cpu μ κ} {t : Nat} {ofc nfc : Ref} {k : Stack μ κ} (hfiber : c.fiber t = ofc)
    (h : CanSwitch c ofc nfc k) : Switched c (context.jump p b c t ofc nfc) t ofc nfc k := by
  cases b with
  | ucontext => exact hp.swapcontext c t ofc nfc k h
  | boostcontext => exact hp.jump_fcontext c t ofc nfc k h
  | fibers =>
    subst hfiber
    exact hp.SwitchToFiber c t nfc k h

theorem Primitives.Documented.create_context {p : Primitives μ κ} (hp : p.Documented)
    (b : BackEnd) {c : Cpu μ κ} (t : Nat) {i : Nat} (k : κ) (h : ∀ u, (c.regs u).ref ≠ .own i) :
    Created c (context.create_context p b c t i k) i k := by
  cases b with
  | ucontext =>
    have hmake := hp.makecontext { c with
      saved := Function.update c.saved (.own i) (p.getcontext (c.regs t)) } i k
      ⟨_, Function.update_self _ _ _⟩ h
    refine ⟨hmake.regs, hmake.fiber, hmake.saved, fun r hr => ?_⟩
    rw [context.create_context, hmake.others r hr]
    simp only [Function.update_of_ne hr]
  | boostcontext => exact hp.make_fcontext c i k h
  | fibers => exact hp.CreateFiber c i k h

theorem Holds.on_main {a : State μ κ} {m : Machine μ κ} (h : Holds a m) {t : Nat}
    (ha : a.active t = none) : m.regs t = .main t (a.main t) := by
  have hr := h.runs t
  rw [ha] at hr
  exact (Option.some.inj hr).symm

theorem Holds.on_own {a : State μ κ} {m : Machine μ κ} (h : Holds a m) {t i : Nat}
    (ha : a.active t = some i) : ∃ k, a.own i = some (t, k) ∧ m.regs t = .own i k := by
  obtain ⟨k, hk⟩ := h.sound t i ha
  have hr := h.runs t
  rw [ha] at hr
  simp only [stackOf, hk, Option.map_some, Option.some.injEq] at hr
  exact ⟨k, hk, hr.symm⟩

theorem Holds.made_on {a : State μ κ} {m : Machine μ κ} (h : Holds a m) {i t : Nat}
    (hi : m.main_ i = some t) : ∃ k, a.own i = some (t, k) := by
  rw [h.made] at hi
  obtain ⟨⟨u, k⟩, ho, hu⟩ := Option.map_eq_some_iff.mp hi
  have hu : u = t := hu
  exact ⟨k, hu ▸ ho⟩

/-- A thread runs the stack of the context that it is in. -/
theorem Holds.ref_eq {a : State μ κ} {m : Machine μ κ} (h : Holds a m) (t : Nat) :
    (m.regs t).ref = fiberOf t (a.active t) := by
  cases ha : a.active t with
  | none =>
    rw [h.on_main ha]
    rfl
  | some i =>
    obtain ⟨k, -, hregs⟩ := h.on_own ha
    rw [hregs]
    rfl

/-- No thread runs the main stack of a thread that is in a coroutine. -/
theorem Holds.idle_main {a : State μ κ} {m : Machine μ κ} (h : Holds a m) {t i : Nat}
    (ha : a.active t = some i) (u : Nat) : (m.regs u).ref ≠ .main t := by
  intro he
  rw [h.ref_eq] at he
  cases hu : a.active u with
  | none =>
    rw [hu] at he
    cases he
    rw [ha] at hu
    cases hu
  | some j =>
    rw [hu] at he
    cases he

/-- No thread runs the stack of a coroutine that none is in. -/
theorem Holds.idle_own {a : State μ κ} {m : Machine μ κ} (h : Holds a m) {i : Nat}
    (hidle : ∀ u, a.active u ≠ some i) (u : Nat) : (m.regs u).ref ≠ .own i := by
  intro he
  rw [h.ref_eq] at he
  cases hu : a.active u with
  | none =>
    rw [hu] at he
    cases he
  | some j =>
    rw [hu] at he
    cases he
    exact hidle u hu

theorem idle_of_suspended {a : State μ κ} (hs : coroutines.Sound a) {t i : Nat} {k : κ}
    (ho : a.own i = some (t, k)) (ha : a.active t ≠ some i) (u : Nat) : a.active u ≠ some i := by
  intro hu
  obtain ⟨k', hk'⟩ := hs u i hu
  rw [ho] at hk'
  cases hk'
  exact ha hu

/-- The jump of `resume`: the main stack is saved, and the stack of the context runs. -/
theorem Holds.resume {p : Primitives μ κ} (hp : p.Documented) (b : BackEnd) {a : State μ κ}
    {m : Machine μ κ} (h : Holds a m) {t i : Nat} {k : κ} (ha : a.active t = none)
    (ho : a.own i = some (t, k)) : ∃ m', resume p b m t i = some m' ∧
      Holds { a with active := Function.update a.active t (some i) } m' := by
  have hnot : a.active t ≠ some i := by simp [ha]
  have hmade : m.main_ i = some t := by rw [h.made, ho]; rfl
  have hcur : m.current t = none := by rw [h.current, ha]
  have hfiber : m.fiber t = .main t := by rw [h.fiber, ha]; rfl
  have hcan : CanSwitch m.toCpu (.main t) (.own i) (.own i k) :=
    ⟨by simp, h.owns i t k ho hnot, h.idle_own (idle_of_suspended h.sound ho hnot)⟩
  have hj := hp.jump b hfiber hcan
  refine ⟨{ m with
    toCpu := jump p b m.toCpu t (.main t) (.own i)
    current := Function.update m.current t (some i) }, ?_, h.sound.steps (.resume ha ho),
    ?_, ?_, ?_, ?_, ?_, h.made⟩
  · simp [context.resume, hcur, hmade]
  · simp [h.current]
  · intro u
    rw [hj.regs]
    by_cases hu : u = t
    · simp [hu, stackOf, ho]
    · simp only [Function.update_of_ne hu]
      exact h.runs u
  · intro u
    rw [hj.fiber]
    by_cases hu : u = t
    · simp [hu, fiberOf]
    · simp only [Function.update_of_ne hu]
      exact h.fiber u
  · intro u j hj'
    by_cases hu : u = t
    · rw [hu]
      exact hj.saved.trans (congrArg some (h.on_main ha))
    · simp only [Function.update_of_ne hu] at hj'
      exact (hj.others (.main u) (by simp [hu]) (by simp)).trans (h.mains u j hj')
  · intro j u k' hj' hne
    have hji : j ≠ i := by
      intro he
      rw [he, ho] at hj'
      cases hj'
      simp [he] at hne
    have hne' : a.active u ≠ some j := by
      intro he
      by_cases hu : u = t
      · rw [hu, ha] at he
        cases he
      · exact hne (by simp [hu, he])
    exact (hj.others (.own j) (by simp) (by simp [hji])).trans (h.owns j u k' hj' hne')

/-- The jump of `yield`: the stack of the context is saved, and the main stack goes on. -/
theorem Holds.yield {p : Primitives μ κ} (hp : p.Documented) (b : BackEnd) {a : State μ κ}
    {m : Machine μ κ} (h : Holds a m) {t i : Nat} (ha : a.active t = some i) :
    ∃ m', yield p b m t i = some m' ∧
      Holds { a with active := Function.update a.active t none } m' := by
  obtain ⟨k, ho, hregs⟩ := h.on_own ha
  have hmade : m.main_ i = some t := by rw [h.made, ho]; rfl
  have hcur : m.current t = some i := by rw [h.current, ha]
  have hfiber : m.fiber t = .own i := by rw [h.fiber, ha]; rfl
  have hcan : CanSwitch m.toCpu (.own i) (.main t) (.main t (a.main t)) :=
    ⟨by simp, h.mains t i ha, h.idle_main ha⟩
  have hj := hp.jump b hfiber hcan
  refine ⟨{ m with
    toCpu := jump p b m.toCpu t (.own i) (.main t)
    current := Function.update m.current t none }, ?_, h.sound.steps (.yield ha),
    ?_, ?_, ?_, ?_, ?_, h.made⟩
  · simp [context.yield, hcur, hmade]
  · simp [h.current]
  · intro u
    rw [hj.regs]
    by_cases hu : u = t
    · simp [hu, stackOf]
    · simp only [Function.update_of_ne hu]
      exact h.runs u
  · intro u
    rw [hj.fiber]
    by_cases hu : u = t
    · simp [hu, fiberOf]
    · simp only [Function.update_of_ne hu]
      exact h.fiber u
  · intro u j hj'
    by_cases hu : u = t
    · simp [hu] at hj'
    · simp only [Function.update_of_ne hu] at hj'
      exact (hj.others (.main u) (by simp) (by simp [hu])).trans (h.mains u j hj')
  · intro j u k' hj' hne
    by_cases hji : j = i
    · rw [hji, ho] at hj'
      cases hj'
      rw [hji]
      exact hj.saved.trans (congrArg some hregs)
    · have hne' : a.active u ≠ some j := by
        intro he
        by_cases hu : u = t
        · rw [hu, ha] at he
          exact hji (Option.some.inj he).symm
        · exact hne (by simp [hu, he])
      exact (hj.others (.own j) (by simp [hji]) (by simp)).trans (h.owns j u k' hj' hne')

/-- The main stack of a thread goes on. -/
theorem Holds.main {a : State μ κ} {m : Machine μ κ} (h : Holds a m) {t : Nat} (k : μ)
    (ha : a.active t = none) : Holds { a with main := Function.update a.main t k }
      { m with regs := Function.update m.regs t (.main t k) } := by
  refine ⟨h.sound, h.current, ?_, h.fiber, ?_, h.owns, h.made⟩
  · intro u
    by_cases hu : u = t
    · simp [hu, ha, stackOf]
    · have hr := h.runs u
      cases hau : a.active u with
      | none =>
        rw [hau] at hr
        simp [hu, stackOf, ← Option.some.inj hr]
      | some j =>
        rw [hau] at hr
        simp only [Function.update_of_ne hu]
        exact hr
  · intro u j hj
    have hu : u ≠ t := by
      intro he
      rw [he, ha] at hj
      cases hj
    simp [hu, h.mains u j hj]

/-- The stack of the context that a thread is in goes on. -/
theorem Holds.own {a : State μ κ} {m : Machine μ κ} (h : Holds a m) {t i : Nat} (k : κ)
    (ha : a.active t = some i) : Holds { a with own := Function.update a.own i (some (t, k)) }
      { m with regs := Function.update m.regs t (.own i k) } := by
  obtain ⟨k₀, ho, -⟩ := h.on_own ha
  refine ⟨h.sound.steps (.own ha), h.current, ?_, h.fiber, h.mains, ?_, ?_⟩
  · intro u
    by_cases hu : u = t
    · simp [hu, ha, stackOf]
    · have hr := h.runs u
      cases hau : a.active u with
      | none =>
        rw [hau] at hr
        simp only [Function.update_of_ne hu]
        exact hr
      | some j =>
        have hji : j ≠ i := by
          intro he
          rw [he] at hau
          exact hu (h.sound.unique hau ha)
        rw [hau] at hr
        simp only [stackOf, Function.update_of_ne hu, Function.update_of_ne hji]
        exact hr
  · intro j u k' hj hne
    by_cases hji : j = i
    · rw [hji] at hj hne
      simp only [Function.update_self, Option.some.injEq, Prod.mk.injEq] at hj
      exact absurd (hj.1 ▸ ha) hne
    · simp only [Function.update_of_ne hji] at hj
      exact h.owns j u k' hj hne
  · intro j
    by_cases hji : j = i
    · simp [hji, h.made, ho]
    · simp [hji, h.made]

theorem Holds.create {p : Primitives μ κ} (hp : p.Documented) (b : BackEnd) {a : State μ κ}
    {m : Machine μ κ} (h : Holds a m) (t : Nat) {i : Nat} (k : κ) (ho : a.own i = none) :
    Holds { a with own := Function.update a.own i (some (t, k)) }
      { m with
        toCpu := create_context p b m.toCpu t i k
        main_ := Function.update m.main_ i (some t) } := by
  have hidle : ∀ u, a.active u ≠ some i := by
    intro u he
    obtain ⟨k', hk'⟩ := h.sound u i he
    rw [ho] at hk'
    cases hk'
  have hc := hp.create_context b t k (h.idle_own hidle)
  refine ⟨h.sound.steps (.create ho), h.current, ?_, ?_, ?_, ?_, ?_⟩
  · intro u
    have hr := h.runs u
    rw [hc.regs]
    cases hau : a.active u with
    | none =>
      rw [hau] at hr
      exact hr
    | some j =>
      have hji : j ≠ i := by
        intro he
        exact hidle u (by rw [hau, he])
      rw [hau] at hr
      simp only [stackOf, Function.update_of_ne hji]
      exact hr
  · intro u
    rw [hc.fiber]
    exact h.fiber u
  · intro u j hj
    exact (hc.others (.main u) (by simp)).trans (h.mains u j hj)
  · intro j u k' hj hne
    by_cases hji : j = i
    · simp only [hji, Function.update_self, Option.some.injEq, Prod.mk.injEq] at hj
      rw [hji, ← hj.2]
      exact hc.saved
    · simp only [Function.update_of_ne hji] at hj
      exact (hc.others (.own j) (by simp [hji])).trans (h.owns j u k' hj hne)
  · intro j
    by_cases hji : j = i
    · simp [hji]
    · simp [hji, h.made]

/-- A step of the coroutines is a step of the contexts. -/
theorem Holds.answer {p : Primitives μ κ} (hp : p.Documented) (b : BackEnd) {a a' : State μ κ}
    {m : Machine μ κ} (h : Holds a m) {e : Event μ κ} (hok : OwnThread m e)
    (hs : Steps a e.toCoroutine a') : ∃ m', step p b m e = some m' ∧ Holds a' m' := by
  cases e with
  | main t k =>
    cases hs with
    | main ha => exact ⟨_, by simp [step, h.on_main ha], h.main k ha⟩
  | own t k =>
    cases hs with
    | own ha =>
      obtain ⟨k₀, -, hregs⟩ := h.on_own ha
      exact ⟨_, by simp [step, hregs], h.own k ha⟩
  | create t i k =>
    cases hs with
    | create ho => exact ⟨_, by simp [step, h.made, ho], h.create hp b t k ho⟩
  | resume t i =>
    cases hs with
    | resume ha ho => exact h.resume hp b ha ho
  | yield t i =>
    have hok : m.current t = some i := hok
    rw [h.current] at hok
    cases hs with
    | yield ha =>
      rw [ha] at hok
      cases hok
      exact h.yield hp b ha

/-- A step of the contexts is a step of the coroutines. -/
theorem Holds.enabled {p : Primitives μ κ} (b : BackEnd) {a : State μ κ} {m m' : Machine μ κ}
    (h : Holds a m) {e : Event μ κ} (hok : OwnThread m e) (hs : step p b m e = some m') :
    ∃ a', Steps a e.toCoroutine a' := by
  cases e with
  | main t k =>
    cases ha : a.active t with
    | none => exact ⟨_, .main ha⟩
    | some i =>
      obtain ⟨k₀, -, hregs⟩ := h.on_own ha
      simp [step, hregs] at hs
  | own t k =>
    cases ha : a.active t with
    | none => simp [step, h.on_main ha] at hs
    | some i => exact ⟨_, .own ha⟩
  | create t i k =>
    cases ho : a.own i with
    | none => exact ⟨_, .create ho⟩
    | some r => simp [step, h.made, ho] at hs
  | resume t i =>
    obtain ⟨k, ho⟩ := h.made_on hok
    cases ha : a.active t with
    | none => exact ⟨_, .resume ha ho⟩
    | some j => simp [step, context.resume, h.current, ha] at hs
  | yield t i =>
    have hok : m.current t = some i := hok
    rw [h.current] at hok
    exact ⟨_, .yield hok⟩

theorem contexts_lockstep {p : Primitives μ κ} (hp : p.Documented) (b : BackEnd) :
    Lockstep (step p b) OwnThread coroutines.step anyEvent Event.toCoroutine
      (fun m a => Holds a m) := by
  intro m a e m' h hok hs
  obtain ⟨a', ha'⟩ := h.enabled b hok hs
  obtain ⟨m'', hm'', hh⟩ := h.answer hp b hok ha'
  rw [hs] at hm''
  cases hm''
  exact ⟨trivial, a', ha'.step, hh⟩

/-- A step of the coroutines has its event on the contexts. -/
theorem Holds.event {a a' : State μ κ} {m : Machine μ κ} (h : Holds a m)
    {e : coroutines.Event μ κ} (hs : Steps a e a') :
    ∃ e' : Event μ κ, e'.toCoroutine = e ∧ OwnThread m e' := by
  cases hs with
  | @main t k ha => exact ⟨.main t k, rfl, trivial⟩
  | @own t i k ha => exact ⟨.own t k, rfl, trivial⟩
  | @create t i k ho => exact ⟨.create t i k, rfl, trivial⟩
  | @resume t i k ha ho => exact ⟨.resume t i, rfl, by simp [OwnThread, h.made, ho]⟩
  | @yield t i ha => exact ⟨.yield t i, rfl, by simp [OwnThread, h.current, ha]⟩

theorem Holds.run {p : Primitives μ κ} (hp : p.Documented) (b : BackEnd)
    (es : List (coroutines.Event μ κ)) {a a' : State μ κ} {m : Machine μ κ} (h : Holds a m)
    (hr : runs.run coroutines.step a es = some a') :
    ∃ es' m', es'.map Event.toCoroutine = es ∧ runOk (step p b) OwnThread m es' = some m' ∧
      Holds a' m' := by
  induction es generalizing a m with
  | nil =>
    cases hr
    exact ⟨[], m, rfl, rfl, h⟩
  | cons e es ih =>
    obtain ⟨a₁, ha₁, hrest⟩ := Option.bind_eq_some_iff.mp hr
    have hs := coroutines.step_steps ha₁
    obtain ⟨e', rfl, hok⟩ := h.event hs
    obtain ⟨m₁, hm₁, h₁⟩ := h.answer hp b hok hs
    obtain ⟨es', m', hes, hrun, h'⟩ := ih h₁ hrest
    refine ⟨e' :: es', m', by rw [List.map_cons, hes], ?_, h'⟩
    rw [runOk, if_pos hok, hm₁]
    exact hrun

/-- On primitives that do what their documentation says, `resume` and `yield` are those of
coroutines on every back end while contexts are resumed by the threads that made them, and the
assertions hold: what runs and what is saved is what the coroutines have, and each run of the
coroutines is one of the contexts. -/
theorem contexts_are_coroutines (p : Primitives μ κ) (hp : p.Documented) (b : BackEnd)
    (main : Nat → μ) :
    (∀ es m, runOk (step p b) OwnThread (start p b main) es = some m →
      ∃ a, runs.run coroutines.step (coroutines.start main) (es.map Event.toCoroutine) = some a ∧
        Holds a m) ∧
    ∀ es a, runs.run coroutines.step (coroutines.start main) es = some a →
      ∃ es' m, es'.map Event.toCoroutine = es ∧
        runOk (step p b) OwnThread (start p b main) es' = some m ∧ Holds a m := by
  constructor
  · intro es m h
    obtain ⟨a, ha, hh⟩ := (contexts_lockstep hp b).runOk es (start_holds p b main) h
    rw [runOk_anyEvent] at ha
    exact ⟨a, ha, hh⟩
  · intro es a h
    exact (start_holds p b main).run hp b es h

/-! ## Primitives that do so -/

/-- A new context with its stack. -/
def Cpu.created (c : Cpu μ κ) (i : Nat) (k : κ) : Cpu μ κ :=
  { c with saved := Function.update c.saved (.own i) (some (.own i k)) }

/-- The stack that thread `t` runs is saved, and the one that is saved for `load` runs. -/
def Cpu.switched (c : Cpu μ κ) (t : Nat) (save load : Ref) : Cpu μ κ :=
  match c.saved load with
  | none => c
  | some k =>
    { regs := Function.update c.regs t k
      fiber := Function.update c.fiber t load
      saved := Function.update c.saved save (some (c.regs t)) }

def plain (μ κ : Type) : Primitives μ κ where
  getcontext := some
  makecontext := Cpu.created
  swapcontext := Cpu.switched
  make_fcontext := Cpu.created
  jump_fcontext := Cpu.switched
  CreateFiber := Cpu.created
  SwitchToFiber c t nfc := c.switched t (c.fiber t) nfc

theorem Cpu.created_spec (c : Cpu μ κ) (i : Nat) (k : κ) : Created c (c.created i k) i k :=
  ⟨rfl, rfl, by simp [Cpu.created], fun r hr => by simp [Cpu.created, hr]⟩

theorem Cpu.switched_spec {c : Cpu μ κ} {save load : Ref} {k : Stack μ κ} (t : Nat)
    (h : CanSwitch c save load k) : Switched c (c.switched t save load) t save load k := by
  rw [Cpu.switched, h.saved]
  exact ⟨rfl, rfl, by simp, fun r hsave _ => by simp [hsave]⟩

theorem plain_documented : (plain μ κ).Documented where
  makecontext c i k _ _ := c.created_spec i k
  swapcontext _ t _ _ _ h := Cpu.switched_spec t h
  make_fcontext c i k _ := c.created_spec i k
  jump_fcontext _ t _ _ _ h := Cpu.switched_spec t h
  CreateFiber c i k _ := c.created_spec i k
  SwitchToFiber _ t _ _ h := Cpu.switched_spec t h

/-- A task that is resumed twice, with the main stack at 0 and its own from 10 on. -/
def resumedTwice : List (Event Nat Nat) :=
  [.create 3 0 10, .resume 3 0, .own 3 11, .yield 3 0, .main 3 1, .resume 3 0]

theorem contexts_are_coroutines_here : ∃ (m : Machine Nat Nat) (a : State Nat Nat),
    runOk (step (plain Nat Nat) .boostcontext) OwnThread
      (start (plain Nat Nat) .boostcontext fun _ => 0) resumedTwice = some m ∧
    runs.run coroutines.step (coroutines.start fun _ => 0)
      (resumedTwice.map Event.toCoroutine) = some a ∧
    Holds a m ∧ m.regs 3 = .own 0 11 := by
  have hrun : ∃ m : Machine Nat Nat, runOk (step (plain Nat Nat) .boostcontext) OwnThread
      (start (plain Nat Nat) .boostcontext fun _ => 0) resumedTwice = some m ∧
      m.regs 3 = .own 0 11 := ⟨_, rfl, rfl⟩
  obtain ⟨m, hrun, hregs⟩ := hrun
  obtain ⟨a, ha, hh⟩ := (contexts_are_coroutines _ plain_documented _ _).1 _ m hrun
  exact ⟨m, a, hrun, ha, hh, hregs⟩

/-! ## The back ends agree -/

/-- Two machines that hold the same coroutines. -/
def Alike (m m' : Machine μ κ) : Prop := ∃ a, Holds a m ∧ Holds a m'

theorem Alike.own_thread {m m' : Machine μ κ} (h : Alike m m') {e : Event μ κ}
    (hok : OwnThread m e) : OwnThread m' e := by
  obtain ⟨a, ha, ha'⟩ := h
  cases e with
  | main t k => trivial
  | own t k => trivial
  | create t i k => trivial
  | resume t i =>
    have hok : m.main_ i = some t := hok
    rw [ha.made] at hok
    exact (ha'.made i).trans hok
  | yield t i =>
    have hok : m.current t = some i := hok
    rw [ha.current] at hok
    exact (congrFun ha'.current t).trans hok

theorem back_ends_lockstep {p p' : Primitives μ κ} (hp : p.Documented) (hp' : p'.Documented)
    (b b' : BackEnd) : Lockstep (step p b) OwnThread (step p' b') OwnThread id Alike := by
  intro m m' e m₁ h hok hs
  have hok' := h.own_thread hok
  obtain ⟨a, ha, ha'⟩ := h
  obtain ⟨a₁, hsteps⟩ := ha.enabled b hok hs
  obtain ⟨m₂, hm₂, h₂⟩ := ha.answer hp b hok hsteps
  obtain ⟨m₃, hm₃, h₃⟩ := ha'.answer hp' b' hok' hsteps
  rw [hs] at hm₂
  cases hm₂
  exact ⟨hok', m₃, hm₃, a₁, h₂, h₃⟩

/-- The stacks that run and the stacks of the suspended contexts are the same. -/
theorem Alike.same {m m' : Machine μ κ} (h : Alike m m') :
    m'.regs = m.regs ∧ m'.current = m.current ∧ m'.fiber = m.fiber ∧ m'.main_ = m.main_ ∧
      ∀ i t, m.main_ i = some t → m.current t ≠ some i → m'.saved (.own i) = m.saved (.own i) := by
  obtain ⟨a, ha, ha'⟩ := h
  have hcur : m'.current = m.current := ha'.current.trans ha.current.symm
  refine ⟨?_, hcur, ?_, ?_, ?_⟩
  · funext t
    exact Option.some.inj ((ha'.runs t).symm.trans (ha.runs t))
  · funext t
    rw [ha'.fiber, ha.fiber]
  · funext i
    rw [ha'.made, ha.made]
  · intro i t hi hne
    obtain ⟨k, ho⟩ := ha.made_on hi
    rw [ha.current] at hne
    rw [ha.owns i t k ho hne, ha'.owns i t k ho hne]

/-- A program that resumes contexts on their own threads does the same on all back ends, whatever
the primitives leave open. -/
theorem the_back_ends_agree (p p' : Primitives μ κ) (hp : p.Documented) (hp' : p'.Documented)
    (b b' : BackEnd) (main : Nat → μ) (es : List (Event μ κ)) (m : Machine μ κ)
    (h : runOk (step p b) OwnThread (start p b main) es = some m) :
    ∃ m', runOk (step p' b') OwnThread (start p' b' main) es = some m' ∧
      m'.regs = m.regs ∧ m'.current = m.current ∧ m'.fiber = m.fiber ∧ m'.main_ = m.main_ ∧
      ∀ i t, m.main_ i = some t → m.current t ≠ some i →
        m'.saved (.own i) = m.saved (.own i) := by
  have halike : Alike (start p b main) (start p' b' main) :=
    ⟨_, start_holds p b main, start_holds p' b' main⟩
  obtain ⟨m', hm', hsame⟩ := (back_ends_lockstep hp hp' b b').runOk es halike h
  rw [List.map_id] at hm'
  exact ⟨m', hm', hsame.same⟩

theorem the_back_ends_agree_here : ∃ m : Machine Nat Nat,
    runOk (step (plain Nat Nat) .fibers) OwnThread (start (plain Nat Nat) .fibers fun _ => 0)
      resumedTwice = some m ∧
    m.regs 3 = .own 0 11 ∧ m.saved (.main 3) = some (.main 3 1) := by
  have hrun : ∃ m : Machine Nat Nat, runOk (step (plain Nat Nat) .ucontext) OwnThread
      (start (plain Nat Nat) .ucontext fun _ => 0) resumedTwice = some m ∧
      m.regs 3 = .own 0 11 := ⟨_, rfl, rfl⟩
  obtain ⟨m, hrun, hregs⟩ := hrun
  obtain ⟨m', hm', hr, -⟩ := the_back_ends_agree _ _ plain_documented plain_documented .ucontext
    .fibers _ _ m hrun
  refine ⟨m', hm', by rw [hr, hregs], ?_⟩
  cases hm'
  rfl

/-! ## A resume on another thread -/

/-- The next `yield` on thread `t` jumps to the main context that thread `u` is in. -/
def YieldsInto (m : Machine μ κ) (t u : Nat) : Prop :=
  ∃ i h, m.current t = some i ∧ m.main_ i = some h ∧ m.fiber u = .main h

/-- No two threads run one stack or are in one context. -/
theorem Holds.apart {a : State μ κ} {m : Machine μ κ} (h : Holds a m) {t u : Nat} (htu : t ≠ u) :
    (m.regs t).ref ≠ (m.regs u).ref ∧ m.fiber t ≠ m.fiber u := by
  have hne : fiberOf t (a.active t) ≠ fiberOf u (a.active u) := by
    intro he
    cases ht : a.active t with
    | none =>
      cases hu : a.active u with
      | none =>
        simp only [ht, hu, fiberOf, Ref.main.injEq] at he
        exact htu he
      | some j => simp [ht, hu, fiberOf] at he
    | some i =>
      cases hu : a.active u with
      | none => simp [ht, hu, fiberOf] at he
      | some j =>
        simp only [ht, hu, fiberOf, Ref.own.injEq] at he
        exact htu (h.sound.unique ht (he ▸ hu))
  exact ⟨by rwa [h.ref_eq, h.ref_eq], by rwa [h.fiber, h.fiber]⟩

/-- A thread yields to its own main context, and no thread is in it. -/
theorem Holds.yields_apart {a : State μ κ} {m : Machine μ κ} (h : Holds a m) (t u : Nat) :
    ¬ YieldsInto m t u := by
  rintro ⟨i, v, hcur, hmade, hfiber⟩
  rw [h.current] at hcur
  obtain ⟨k, ho, -⟩ := h.on_own hcur
  rw [h.made, ho] at hmade
  cases hmade
  rw [h.fiber, ← h.ref_eq] at hfiber
  exact h.idle_main hcur u hfiber

/-- What is saved for the main context of `u` after a resume on `t` of one of its contexts: the main
stack of `t`, except on fibers, where that of `u` has not moved. -/
def savedMain (b : BackEnd) (a : State μ κ) (t u : Nat) : Stack μ κ :=
  match b with
  | .fibers => .main u (a.main u)
  | _ => .main t (a.main t)

/-- The jump of a resume on `t` of context `i`, whose main context is that of `u`. -/
theorem Holds.foreign_jump {p : Primitives μ κ} (hp : p.Documented) (b : BackEnd) {a : State μ κ}
    {m : Machine μ κ} (h : Holds a m) {t u i j : Nat} {k : κ} (ht : a.active t = none)
    (hu : a.active u = some j) (ho : a.own i = some (u, k)) (hij : i ≠ j) :
    (jump p b m.toCpu t (.main u) (.own i)).regs = Function.update m.regs t (.own i k) ∧
      (jump p b m.toCpu t (.main u) (.own i)).fiber u = .own j ∧
      (jump p b m.toCpu t (.main u) (.own i)).saved (.main u) = some (savedMain b a t u) := by
  have htu : t ≠ u := by
    intro he
    rw [he, hu] at ht
    cases ht
  have hnot : a.active u ≠ some i := by simp [hu, hij.symm]
  have hidle := h.idle_own (idle_of_suspended h.sound ho hnot)
  have hown := h.owns i u k ho hnot
  have hfu : Function.update m.fiber t (.own i) u = .own j := by
    simp [htu.symm, h.fiber, hu, fiberOf]
  have hcan : ∀ v, CanSwitch m.toCpu (.main v) (.own i) (.own i k) :=
    fun _ => ⟨by simp, hown, hidle⟩
  cases b with
  | ucontext =>
    have hj := hp.swapcontext m.toCpu t (.main u) (.own i) _ (hcan u)
    exact ⟨hj.regs, (congrFun hj.fiber u).trans hfu,
      hj.saved.trans (congrArg some (h.on_main ht))⟩
  | boostcontext =>
    have hj := hp.jump_fcontext m.toCpu t (.main u) (.own i) _ (hcan u)
    exact ⟨hj.regs, (congrFun hj.fiber u).trans hfu,
      hj.saved.trans (congrArg some (h.on_main ht))⟩
  | fibers =>
    have hft : m.fiber t = .main t := by rw [h.fiber, ht]; rfl
    have hj := hp.SwitchToFiber m.toCpu t (.own i) _ (hft ▸ hcan t)
    refine ⟨hj.regs, (congrFun hj.fiber u).trans hfu, ?_⟩
    exact (hj.others (.main u) (by simp [hft, htu.symm]) (by simp)).trans (h.mains u j hu)

theorem Holds.foreign {p : Primitives μ κ} (hp : p.Documented) (b : BackEnd) {a : State μ κ}
    {m : Machine μ κ} (h : Holds a m) {t u i j : Nat} (ht : a.active t = none)
    (hu : a.active u = some j) (hi : m.main_ i = some u) (hij : i ≠ j) :
    ∃ m', runs.run (step p b) m [.resume t i, .yield u j] = some m' ∧ YieldsInto m' t u ∧
      m'.regs u = savedMain b a t u := by
  have htu : t ≠ u := by
    intro he
    rw [he, hu] at ht
    cases ht
  obtain ⟨kⱼ, hoj, -⟩ := h.on_own hu
  obtain ⟨k, ho⟩ := h.made_on hi
  have hmj : m.main_ j = some u := by rw [h.made, hoj]; rfl
  have hct : m.current t = none := by rw [h.current, ht]
  have hcu : m.current u = some j := by rw [h.current, hu]
  obtain ⟨hregs, hfu, hsaved⟩ := h.foreign_jump hp b ht hu ho hij
  -- no thread runs what the yield of `u` goes on with
  have hidle : ∀ v, ((jump p b m.toCpu t (.main u) (.own i)).regs v).ref ≠
      (savedMain b a t u).ref := by
    intro v
    rw [hregs]
    by_cases hv : v = t
    · cases b <;> simp [hv, savedMain, Stack.ref]
    · rw [Function.update_of_ne hv]
      cases b with
      | fibers => exact h.idle_main hu v
      | ucontext => exact fun he => (h.apart hv).1 (by rw [he, h.on_main ht]; rfl)
      | boostcontext => exact fun he => (h.apart hv).1 (by rw [he, h.on_main ht]; rfl)
  have hj := hp.jump b hfu ⟨by simp, hsaved, hidle⟩
  refine ⟨{ m with
    toCpu := jump p b (jump p b m.toCpu t (.main u) (.own i)) u (.own j) (.main u)
    current := Function.update (Function.update m.current t (some i)) u none }, ?_, ?_, ?_⟩
  · simp [runs.run, step, context.resume, context.yield, hct, hi, hcu, hmj, htu.symm]
  · exact ⟨i, u, by simp [htu], hi, by simp [hj.fiber]⟩
  · simp [hj.regs]

/-- While contexts are resumed by the threads that made them, no two threads run one stack, and no
thread yields into a context that a thread is in. After one resume of a suspended context by another
thread, when the thread that made it has yielded, the next yield of the other one does that: the
primitives say nothing of such a switch. Except on fibers, the first thread has then gone on with
the main stack of the other one. -/
theorem a_foreign_resume_yields_into_a_thread (p : Primitives μ κ) (hp : p.Documented)
    (b : BackEnd) (main : Nat → μ) (es : List (Event μ κ)) (m : Machine μ κ)
    (h : runOk (step p b) OwnThread (start p b main) es = some m) :
    (∀ t u, t ≠ u → (m.regs t).ref ≠ (m.regs u).ref ∧ m.fiber t ≠ m.fiber u) ∧
    (∀ t u, ¬ YieldsInto m t u) ∧
    ∀ t u i j, m.current t = none → m.current u = some j → m.main_ i = some u → i ≠ j →
      ∃ m', runs.run (step p b) m [.resume t i, .yield u j] = some m' ∧ YieldsInto m' t u ∧
        (b ≠ .fibers → m'.regs u = m.regs t) := by
  obtain ⟨a, -, hh⟩ := (contexts_lockstep hp b).runOk es (start_holds p b main) h
  refine ⟨fun t u => hh.apart, hh.yields_apart, ?_⟩
  intro t u i j ht hu hi hij
  rw [hh.current] at ht hu
  obtain ⟨m', hm', hinto, hregs⟩ := hh.foreign hp b ht hu hi hij
  refine ⟨m', hm', hinto, fun hb => ?_⟩
  rw [hregs, hh.on_main ht]
  cases b with
  | fibers => exact absurd rfl hb
  | ucontext => rfl
  | boostcontext => rfl

/-- Thread 4 resumes a context of thread 3, which is in another one. -/
theorem a_foreign_resume_yields_into_a_thread_here : ∃ m : Machine Nat Nat,
    run (step (plain Nat Nat) .ucontext) (start (plain Nat Nat) .ucontext id)
      [.create 3 0 10, .create 3 1 20, .resume 3 1, .resume 4 0, .yield 3 1] = some m ∧
    YieldsInto m 4 3 ∧ m.regs 3 = .main 4 4 := by
  have hrun : ∃ m : Machine Nat Nat, runOk (step (plain Nat Nat) .ucontext) OwnThread
      (start (plain Nat Nat) .ucontext id) [.create 3 0 10, .create 3 1 20, .resume 3 1] =
        some m ∧
      m.current 4 = none ∧ m.current 3 = some 1 ∧ m.main_ 0 = some 3 ∧ m.regs 4 = .main 4 4 :=
    ⟨_, rfl, rfl, rfl, rfl, rfl⟩
  obtain ⟨m, hrun, h4, h3, h0, hregs⟩ := hrun
  obtain ⟨m', hm', hinto, hmain⟩ := (a_foreign_resume_yields_into_a_thread _ plain_documented
    .ucontext _ _ m hrun).2.2 4 3 0 1 h4 h3 h0 (by decide)
  cases hrun
  exact ⟨m', hm', hinto, (hmain (by decide)).trans hregs⟩

end ltl.context
